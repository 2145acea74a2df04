import Mathlib.Data.List.Perm.Subperm
import TinyCrypto.X509.RevocationGrowth
import TinyCrypto.Library.Chains
import TinyCrypto.Library.Steady

/-! # Two ways to find a node

The linear scan and the bucket chains of the node table are one lookup: the position of a
certificate, or a new node at the end. The links stay inside the nodes and descend.
-/

namespace TinyCrypto.X509

open Library Library.Program Library.Metered

abbrev Nodes := List (Bytes × NodeStatus)

def lookupNode (capacity : Nat) (nodes : Nodes) (certificate : Bytes) : Except Result Nat × Nodes :=
  if certificate = [] then (.error .argument, nodes)
  else
    match nodes.findIdx? (·.1 = certificate) with
    | some i => (.ok i, nodes)
    | none =>
      if nodes.length = capacity then (.error .limit, nodes)
      else (.ok nodes.length, nodes ++ [(certificate, .undetermined)])

def Table.view (t : Table) : Nodes := t.nodes.map fun node => (node.certificate, node.status)

def Table.link (t : Table) (i : Nat) : Option Nat := t.nodes[i]?.bind Node.hashNext

def Table.certificate (t : Table) (i : Nat) : Bytes := (t.nodes[i]?.map Node.certificate).getD []

def Table.bucket (n : NodeInput) (t : Table) (i : Nat) : Nat := n.hash (t.certificate i) % n.capacity

/-- One node for a certificate, and no more nodes than fit. -/
structure TableDistinct (n : NodeInput) (t : Table) : Prop where
  room : t.nodes.length ≤ n.capacity
  unique : ∀ i j, i < t.nodes.length → j < t.nodes.length → t.certificate i = t.certificate j → i = j

/-- Once there is a node, every bucket has a chain of exactly its nodes. -/
structure TableIndexed (n : NodeInput) (t : Table) : Prop extends TableDistinct n t where
  buckets : t.nodes ≠ [] → Buckets t.hashHead t.link (t.bucket n) (· < t.nodes.length)

section

variable {n : NodeInput} {t t' : Table} {certificate : Bytes} {i : Nat}

theorem Table.certificate_of {node : Node} (found : t.nodes[i]? = some node) :
    t.certificate i = node.certificate := by
  rw [Table.certificate, found]
  rfl

theorem sameEncoding_completes (previous : Bytes) :
    Completes (certificate.length + 1) (sameEncoding previous certificate) t
      (.ok (decide (previous = certificate))) t := by
  unfold sameEncoding
  by_cases length : previous.length ≠ certificate.length
  · have other : previous ≠ certificate := fun same => length (congrArg List.length same)
    rw [decide_eq_false other, Nat.add_comm]
    refine completes_bind completes_charge ?_
    rw [if_pos length]
    exact completes_pure.mono (Nat.zero_le _)
  · rw [Nat.add_comm]
    refine completes_bind completes_charge ?_
    rw [if_neg length]
    exact completes_bind_free completes_charge completes_pure

theorem nodeScan_completes (nodes : List Node) (index : Nat) :
    Completes (nodes.length * (certificate.length + 1)) (nodeScan certificate index nodes) t
      (.ok ((nodes.findIdx? (·.certificate = certificate)).map (index + ·))) t := by
  induction nodes generalizing index with
  | nil => exact completes_pure.mono (Nat.zero_le _)
  | cons node rest ih =>
    unfold nodeScan
    rw [List.length_cons, Nat.succ_mul, Nat.add_comm, List.findIdx?_cons]
    refine completes_bind (sameEncoding_completes node.certificate) ?_
    by_cases same : node.certificate = certificate
    · simp only [same, decide_true, if_true]
      exact completes_pure.mono (Nat.zero_le _)
    · simp only [same, decide_false, Bool.false_eq_true, if_false]
      have later := ih (index + 1)
      rw [Option.map_map]
      have shift : ((index + ·) ∘ (· + 1) : Nat → Nat) = (index + 1 + ·) := by
        funext j
        simp only [Function.comp_apply]
        omega
      rwa [shift]

theorem view_findIdx (t : Table) (certificate : Bytes) :
    t.view.findIdx? (·.1 = certificate) = t.nodes.findIdx? (·.certificate = certificate) := by
  rw [Table.view, List.findIdx?_map]
  rfl

theorem view_length (t : Table) : t.view.length = t.nodes.length := List.length_map ..

theorem view_append (t : Table) (certificate : Bytes) (link : Option Nat)
    (heads : Nat → Option Nat) :
    ({ t.append certificate link with hashHead := heads } : Table).view =
      t.view ++ [(certificate, .undetermined)] := by
  simp [Table.view, Table.append]

theorem dependencyFind_reaches (n : NodeInput) (t : Table) (certificate : Bytes) :
    ∃ t', Reaches (dependencyFind n certificate) t (lookupNode n.capacity t.view certificate).1 t' ∧
      t'.view = (lookupNode n.capacity t.view certificate).2 := by
  unfold dependencyFind lookupNode
  split
  · exact ⟨t, reaches_throw, rfl⟩
  have scan := @nodeScan_completes t certificate t.nodes 0
  rw [view_findIdx, view_length]
  cases found : t.nodes.findIdx? (·.certificate = certificate) with
  | some i =>
    rw [found, Option.map_some, Nat.zero_add] at scan
    exact ⟨t, reaches_bind reaches_data (reaches_bind ⟨_, scan⟩ reaches_pure), rfl⟩
  | none =>
    rw [found, Option.map_none] at scan
    dsimp only
    by_cases full : t.nodes.length = n.capacity
    · rw [if_pos full]
      refine ⟨t, reaches_bind reaches_data (reaches_bind ⟨_, scan⟩ ?_), rfl⟩
      dsimp only
      rw [if_pos full]
      exact reaches_throw
    · rw [if_neg full]
      refine ⟨t.append certificate none, reaches_bind reaches_data
        (reaches_bind ⟨_, scan⟩ ?_), view_append t certificate none t.hashHead⟩
      dsimp only
      rw [if_neg full]
      exact reaches_bind reaches_update reaches_pure

theorem chainScan_completes {cursor : Option Nat} {positions : List Nat}
    (chain : Chain t.link cursor positions) (inside : ∀ i ∈ positions, i < t.nodes.length)
    {passes : Nat} (enough : positions.length ≤ passes) :
    Completes (positions.length * (certificate.length + 1)) (chainScan certificate passes cursor) t
      (.ok (positions.find? fun i => t.certificate i = certificate)) t := by
  induction chain generalizing passes with
  | nil =>
    unfold chainScan
    exact completes_pure.mono (Nat.zero_le _)
  | @cons i rest chain ih =>
    obtain ⟨node, found⟩ : ∃ node, t.nodes[i]? = some node :=
      ⟨_, List.getElem?_eq_getElem (inside i List.mem_cons_self)⟩
    rw [Table.link, found] at chain ih
    obtain ⟨passes, rfl⟩ := Nat.exists_eq_add_of_le' (Nat.le_trans (Nat.le_add_left 1 _) enough)
    rw [List.length_cons, Nat.add_le_add_iff_right] at enough
    unfold chainScan
    rw [List.length_cons, Nat.succ_mul, Nat.add_comm, List.find?_cons, Table.certificate_of found,
      ← Nat.zero_add (_ + _)]
    refine completes_bind completes_data ?_
    rw [found]
    dsimp only
    refine completes_bind (sameEncoding_completes node.certificate) ?_
    by_cases same : node.certificate = certificate
    · simp only [same, decide_true, if_true]
      exact completes_pure.mono (Nat.zero_le _)
    · simp only [same, decide_false, Bool.false_eq_true, if_false]
      exact ih (fun j member => inside j (List.mem_cons_of_mem i member)) enough

theorem chainScan_passes {cursor : Option Nat} {positions : List Nat}
    (chain : Chain t.link cursor positions) {passes passes' : Nat}
    (enough : positions.length ≤ passes) (enough' : positions.length ≤ passes') (work : Nat) :
    (chainScan certificate passes cursor).exec ⟨work, t⟩ =
      (chainScan certificate passes' cursor).exec ⟨work, t⟩ := by
  induction chain generalizing passes passes' work with
  | nil =>
    unfold chainScan
    rfl
  | @cons i rest chain ih =>
    obtain ⟨passes, rfl⟩ := Nat.exists_eq_add_of_le' (Nat.le_trans (Nat.le_add_left 1 _) enough)
    obtain ⟨passes', rfl⟩ := Nat.exists_eq_add_of_le' (Nat.le_trans (Nat.le_add_left 1 _) enough')
    rw [List.length_cons, Nat.add_le_add_iff_right] at enough enough'
    unfold chainScan
    rw [exec_bind, exec_bind, exec_data]
    dsimp only
    cases found : t.nodes[i]? with
    | none => rfl
    | some node =>
      rw [Table.link, found] at ih
      dsimp only
      rw [exec_bind, exec_bind]
      rcases compared : (sameEncoding node.certificate certificate).exec ⟨work, t⟩ with
        ⟨e | same, ⟨left, t'⟩⟩
      · rfl
      · dsimp only
        have kept : t' = t := (sameEncoding_gives compared).2
        subst kept
        cases same with
        | true => rfl
        | false => exact ih enough enough' left

theorem TableIndexed.chain (indexed : TableIndexed n t) (some : t.nodes ≠ []) (b : Nat) :
    ∃ positions, Chain t.link (t.hashHead b) positions ∧ positions.length ≤ t.nodes.length ∧
      ∀ i, i ∈ positions ↔ i < t.nodes.length ∧ t.bucket n i = b := by
  obtain ⟨positions, chain, descends, within⟩ := (indexed.buckets some).chain b
  refine ⟨positions, chain, ?_, within⟩
  have nodup : positions.Nodup := descends.imp fun greater => Nat.ne_of_gt greater
  have inside : positions ⊆ List.range t.nodes.length := fun i member =>
    List.mem_range.mpr ((within i).mp member).1
  simpa using (List.subperm_of_subset nodup inside).length_le

theorem findIdx_none (missing : t.nodes.findIdx? (·.certificate = certificate) = none)
    (inside : i < t.nodes.length) : t.certificate i ≠ certificate := by
  have node := List.getElem?_eq_getElem inside
  rw [Table.certificate_of node]
  have other := List.findIdx?_eq_none_iff.mp missing _ (List.getElem_mem inside)
  exact of_decide_eq_false other

theorem findIdx_some (found : t.nodes.findIdx? (·.certificate = certificate) = some i) :
    i < t.nodes.length ∧ t.certificate i = certificate := by
  obtain ⟨inside, same, _⟩ := List.findIdx?_eq_some_iff_getElem.mp found
  refine ⟨inside, ?_⟩
  rw [Table.certificate_of (List.getElem?_eq_getElem inside)]
  exact of_decide_eq_true same

theorem TableDistinct.find (distinct : TableDistinct n t) {positions : List Nat}
    (within : ∀ i, i ∈ positions ↔ i < t.nodes.length ∧
      t.bucket n i = n.hash certificate % n.capacity) :
    (positions.find? fun i => t.certificate i = certificate) =
      t.nodes.findIdx? (·.certificate = certificate) := by
  cases found : t.nodes.findIdx? (·.certificate = certificate) with
  | none =>
    rw [List.find?_eq_none]
    intro i member
    simpa using findIdx_none found ((within i).mp member).1
  | some i =>
    obtain ⟨inside, same⟩ := findIdx_some found
    have member : i ∈ positions := (within i).mpr ⟨inside, by rw [Table.bucket, same]⟩
    cases chosen : positions.find? fun i => t.certificate i = certificate with
    | none => exact absurd (decide_eq_true same) (List.find?_eq_none.mp chosen i member)
    | some j =>
      have known := (within j).mp (List.mem_of_find?_eq_some chosen)
      have same' : t.certificate j = certificate := by simpa using List.find?_some chosen
      rw [distinct.unique j i known.1 inside (same'.trans same.symm)]

def Table.push (n : NodeInput) (t : Table) (certificate : Bytes) : Table :=
  { t.append certificate (t.hashHead (n.hash certificate % n.capacity)) with
    hashHead := Function.update t.hashHead (n.hash certificate % n.capacity) (some t.nodes.length) }

theorem Table.append_node (t : Table) (certificate : Bytes) (link : Option Nat) :
    (t.append certificate link).nodes[i]? =
      if i = t.nodes.length then some ⟨certificate, .undetermined, link⟩ else t.nodes[i]? := by
  rw [Table.append, List.getElem?_append]
  grind

theorem Table.append_certificate (t : Table) (certificate : Bytes) (link : Option Nat)
    (heads : Nat → Option Nat) :
    ({ t.append certificate link with hashHead := heads } : Table).certificate i =
      if i = t.nodes.length then certificate else t.certificate i := by
  unfold Table.certificate
  dsimp only
  rw [Table.append_node]
  split <;> rfl

theorem Table.append_link (t : Table) (certificate : Bytes) (link : Option Nat)
    (heads : Nat → Option Nat) :
    ({ t.append certificate link with hashHead := heads } : Table).link i =
      if i = t.nodes.length then link else t.link i := by
  unfold Table.link
  dsimp only
  rw [Table.append_node]
  split <;> rfl

theorem TableDistinct.append (distinct : TableDistinct n t) (full : t.nodes.length ≠ n.capacity)
    (fresh : ∀ i, i < t.nodes.length → t.certificate i ≠ certificate) (link : Option Nat)
    (heads : Nat → Option Nat) :
    TableDistinct n { t.append certificate link with hashHead := heads } := by
  have length : ({ t.append certificate link with hashHead := heads } : Table).nodes.length =
      t.nodes.length + 1 := by simp [Table.append]
  refine ⟨?_, ?_⟩
  · have room := distinct.room
    omega
  · intro i j inside inside' same
    rw [length] at inside inside'
    rw [Table.append_certificate, Table.append_certificate] at same
    split at same <;> split at same
    · omega
    · exact absurd same.symm (fresh j (by omega))
    · exact absurd same (fresh i (by omega))
    · exact distinct.unique i j (by omega) (by omega) same

theorem TableIndexed.push (indexed : TableIndexed n t) (full : t.nodes.length ≠ n.capacity)
    (buckets : Buckets t.hashHead t.link (t.bucket n) (· < t.nodes.length))
    (fresh : ∀ i, i < t.nodes.length → t.certificate i ≠ certificate) :
    TableIndexed n (t.push n certificate) := by
  have length : (t.push n certificate).nodes.length = t.nodes.length + 1 := by
    simp [Table.push, Table.append]
  have certificates (i : Nat) : (t.push n certificate).certificate i =
      if i = t.nodes.length then certificate else t.certificate i := Table.append_certificate ..
  have links (i : Nat) : (t.push n certificate).link i = if i = t.nodes.length then
      t.hashHead (n.hash certificate % n.capacity) else t.link i := Table.append_link ..
  have key : (t.push n certificate).bucket n t.nodes.length = n.hash certificate % n.capacity := by
    rw [Table.bucket, certificates, if_pos rfl]
  have framed : Buckets t.hashHead t.link ((t.push n certificate).bucket n)
      (· < t.nodes.length) := by
    refine buckets.frame (fun _ => rfl) (fun _ _ => rfl) (fun _ => Iff.rfl) fun i inside => ?_
    rw [Table.bucket, Table.bucket, certificates, if_neg (Nat.ne_of_lt inside)]
  refine ⟨indexed.append full fresh _ _, fun _ => ?_⟩
  refine framed.push (i := t.nodes.length) (fun j inside => inside) ?_ ?_ ?_ ?_ ?_
  · rw [key]
    exact Function.update_self ..
  · intro b other
    rw [key] at other
    exact Function.update_of_ne other ..
  · rw [links, if_pos rfl, key]
  · intro j inside
    rw [links, if_neg (Nat.ne_of_lt inside)]
  · intro j
    rw [length]
    omega

theorem clearBuckets_reaches (indexed : TableIndexed n t) :
    ∃ t', Reaches (clearBuckets n) t (.ok ()) t' ∧ t'.nodes = t.nodes ∧
      TableIndexed n t' ∧ Buckets t'.hashHead t'.link (t'.bucket n) (· < t'.nodes.length) := by
  unfold clearBuckets
  by_cases empty : t.nodes = []
  · have nothing : ∀ i, ¬i < t.nodes.length := by simp [empty]
    have cleared : Buckets (fun _ => none) t.link (t.bucket n) (· < t.nodes.length) :=
      Buckets.empty (fun _ => rfl) nothing
    refine ⟨{ t with hashHead := fun _ => none }, ?_, rfl, ⟨⟨indexed.room, indexed.unique⟩, fun _ => cleared⟩, cleared⟩
    refine reaches_bind reaches_data ?_
    rw [if_pos empty]
    exact reaches_bind reaches_charge reaches_update
  · refine ⟨t, reaches_bind reaches_data ?_, rfl, indexed, indexed.buckets empty⟩
    rw [if_neg empty]
    exact reaches_pure

theorem dependencyFindIndexed_reaches (indexed : TableIndexed n t) (room : n.capacity ≠ 0)
    (certificate : Bytes) : ∃ t', Reaches (dependencyFindIndexed n certificate) t
        (lookupNode n.capacity t.view certificate).1 t' ∧
      t'.view = (lookupNode n.capacity t.view certificate).2 ∧ TableIndexed n t' := by
  unfold dependencyFindIndexed lookupNode
  split
  · exact ⟨t, reaches_throw, rfl, indexed⟩
  obtain ⟨t₁, cleared, nodes, indexed₁, buckets⟩ := clearBuckets_reaches indexed
  have view : t.view = t₁.view := by rw [Table.view, Table.view, nodes]
  rw [view, view_findIdx, view_length]
  obtain ⟨positions, chain, descends, within⟩ := buckets.chain (n.hash certificate % n.capacity)
  have scan (passes : Nat) (enough : positions.length ≤ passes) :=
    @chainScan_completes _ certificate _ _ chain
      (fun i member => ((within i).mp member).1) passes enough
  rw [indexed₁.toTableDistinct.find within] at scan
  have start {t' : Table} {r : Except Result Nat} {rest : Budgeted Table → CrlProgram Nat}
      (continued : ∀ work, positions.length ≤ work → Completes
        (positions.length * (certificate.length + 1)) (rest ⟨work, t₁⟩) t₁ r t') :
      Reaches (do clearBuckets n; charge .limit certificate.length; rest (← state)) t r t' := by
    have searched : Completes (positions.length * (certificate.length + 1)) (state >>= rest) t₁ r t' := by
      apply completes_state
      intro work enough
      exact continued work (Nat.le_trans (Nat.le_mul_of_pos_right _ (Nat.succ_pos _)) enough)
    exact reaches_bind cleared (reaches_bind reaches_charge ⟨_, searched⟩)
  cases found : t₁.nodes.findIdx? (·.certificate = certificate) with
  | some i =>
    rw [found] at scan
    refine ⟨t₁, start fun work enough => ?_, rfl, indexed₁⟩
    exact completes_bind_free (scan _ (Nat.le_succ_of_le enough)) completes_pure
  | none =>
    rw [found] at scan
    dsimp only
    by_cases full : t₁.nodes.length = n.capacity
    · rw [if_pos full]
      refine ⟨t₁, start fun work enough => ?_, rfl, indexed₁⟩
      refine completes_bind_free (scan _ (Nat.le_succ_of_le enough)) ?_
      dsimp only
      rw [if_pos full]
      exact completes_throw
    · rw [if_neg full]
      refine ⟨t₁.push n certificate, start fun work enough => ?_, view_append t₁ certificate _ _,
        indexed₁.push full buckets fun i => findIdx_none found⟩
      refine completes_bind_free (scan _ (Nat.le_succ_of_le enough)) ?_
      dsimp only
      rw [if_neg full]
      exact completes_bind_free completes_update completes_pure

end

end TinyCrypto.X509
