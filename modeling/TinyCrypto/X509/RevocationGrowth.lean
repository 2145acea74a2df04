import TinyCrypto.X509.Revocation

/-! # What an evaluation does to the table

An evaluation adds undetermined nodes and may set the flag of coverage mode. It
never changes a status, so what it found resolved stays so until it ends.
-/

namespace TinyCrypto.X509

open Library Library.Program Library.Metered

def statusIn : List Mark → Nat → NodeStatus
  | [], _ => .undetermined
  | m :: log, i => if m.node = i then m.status else statusIn log i

/-- The node `i` is on the chain that starts at a cursor. -/
inductive Linked (nodes : List Node) : Option Nat → Nat → Prop
  | here {i : Nat} : Linked nodes (some i) i
  | next {cursor i : Nat} {node : Node} (found : nodes[cursor]? = some node)
      (rest : Linked nodes node.hashNext i) : Linked nodes (some cursor) i

/-- The certificate has a node that is GOOD when `older` was marked, or, where
    `uncovered` allows it, UNCOVERED. -/
def Established (nodes : List Node) (uncovered : Prop) (older : List Mark) (certificate : Bytes) :
    Prop :=
  ∃ i node, nodes[i]? = some node ∧ node.certificate = certificate ∧
    (statusIn older i = .good ∨ uncovered ∧ statusIn older i = .uncovered)

/-- The CRLs were accepted under the anchor itself, or under a signer path whose
    members are all established. -/
def Grounded {Q : Type} (c : CrlPrimitives Q) (nodes : List Node) (uncovered : Prop)
    (older : List Mark) (use : Used) : Prop :=
  (c.anchorCheck use.selected).result = .ok ∨
    ∀ certificate ∈ use.signer.path, Established nodes uncovered older certificate

def Founded {Q : Type} (c : CrlPrimitives Q) (nodes : List Node) (uncovered : Prop) :
    List Mark → Prop
  | [] => True
  | m :: older => (∀ use ∈ m.used, Grounded c nodes uncovered older use) ∧
      Founded c nodes uncovered older

/-- A consistent table: one node per certificate, statuses as logged, and every
    mark founded. -/
structure TableOk {Q : Type} (c : CrlPrimitives Q) (n : NodeInput) (t : Table) : Prop where
  room : t.nodes.length ≤ n.capacity
  unique : ∀ (i j : Nat) (a b : Node), t.nodes[i]? = some a → t.nodes[j]? = some b →
    a.certificate = b.certificate → i = j
  linked : n.indexed = true → ∀ (i : Nat) (node : Node), t.nodes[i]? = some node →
    Linked t.nodes (t.hashHead (n.hash node.certificate % n.capacity)) i
  recorded : ∀ (i : Nat) (node : Node), t.nodes[i]? = some node → node.status = statusIn t.log i
  logged : ∀ m ∈ t.log, m.node < t.nodes.length
  founded : Founded c t.nodes (t.uncoveredUsed.isSome = true) t.log

def UnresolvedOk (t : Table) : Prop := ∀ p, t.unresolved = some p → p.result ≠ .ok

structure Grows {Q : Type} (c : CrlPrimitives Q) (n : NodeInput) (s s' : Budgeted Table) :
    Prop where
  work : s'.work ≤ s.work
  nodes : ∃ new, s'.data.nodes = s.data.nodes ++ new ∧ ∀ node ∈ new, node.status = .undetermined
  log : s'.data.log = s.data.log
  coverage : s'.data.uncoveredUsed.isSome = s.data.uncoveredUsed.isSome
  flag : s.data.uncoveredUsed = some true → s'.data.uncoveredUsed = some true
  unresolved : UnresolvedOk s.data → UnresolvedOk s'.data
  ok : TableOk c n s.data → TableOk c n s'.data

section

variable {Q : Type} {c : CrlPrimitives Q} {n : NodeInput}

instance : Std.Refl (Grows c n) :=
  ⟨fun _ => ⟨Nat.le_refl _, ⟨[], by simp, by simp⟩, rfl, rfl, id, id, id⟩⟩

instance : IsTrans (Budgeted Table) (Grows c n) where
  trans := by
    rintro s t u ⟨work, ⟨new, nodes, open_⟩, log, coverage, flag, unresolved, ok⟩
      ⟨work', ⟨new', nodes', open'⟩, log', coverage', flag', unresolved', ok'⟩
    refine ⟨Nat.le_trans work' work, ⟨new ++ new', by rw [nodes', nodes, List.append_assoc], ?_⟩,
      log'.trans log, coverage'.trans coverage, fun set => flag' (flag set),
      fun holds => unresolved' (unresolved holds), fun holds => ok' (ok holds)⟩
    intro node member
    rcases List.mem_append.mp member with member | member
    · exact open_ node member
    · exact open' node member

variable {s s' : Budgeted Table}

theorem grows_of_same (work : s'.work ≤ s.work) (nodes : s'.data.nodes = s.data.nodes)
    (hashHead : s'.data.hashHead = s.data.hashHead)
    (flag : s'.data.uncoveredUsed = s.data.uncoveredUsed) (log : s'.data.log = s.data.log)
    (unresolved : UnresolvedOk s.data → UnresolvedOk s'.data) : Grows c n s s' := by
  refine ⟨work, ⟨[], by simp [nodes], by simp⟩, log, by rw [flag], by rw [flag]; exact id,
    unresolved, ?_⟩
  rintro ⟨room, unique, linked, recorded, logged, founded⟩
  refine ⟨?_, ?_, ?_, ?_, ?_, ?_⟩
  all_goals simp only [nodes, hashHead, flag, log]
  · exact room
  · exact unique
  · exact linked
  · exact recorded
  · exact logged
  · exact founded

theorem grows_charge {amount : Nat} :
    Moves (Grows c n) (charge Result.limit amount : CrlProgram Unit) := by
  intro s
  change Grows c n s (if amount > s.work then (Except.error Result.limit, { s with work := 0 })
    else (Except.ok (), { s with work := s.work - amount })).2
  split
  · exact grows_of_same (Nat.zero_le _) rfl rfl rfl rfl id
  · exact grows_of_same (Nat.sub_le _ _) rfl rfl rfl rfl id

theorem grows_answer {A : Type} {limit : A} {p : Priced A} :
    Moves (Grows c n) (answer limit p : CrlProgram A) := by
  intro s
  change Grows c n s (if p.cost > s.work then (Except.ok limit, { s with work := 0 })
    else (Except.ok p.result, { s with work := s.work - p.cost })).2
  split
  · exact grows_of_same (Nat.zero_le _) rfl rfl rfl rfl id
  · exact grows_of_same (Nat.sub_le _ _) rfl rfl rfl rfl id

theorem grows_call {A : Type} {p : Priced (Except Result A)} :
    Moves (Grows c n) (call Result.limit p : CrlProgram A) :=
  .bind grows_charge fun _ => .lift _

theorem grows_data : Moves (Grows c n) (data : CrlProgram Table) := fun _ => Std.Refl.refl _

theorem grows_scratch {f : Table → Table} (same : ∀ t, (f t).nodes = t.nodes ∧
      (f t).hashHead = t.hashHead ∧ (f t).uncoveredUsed = t.uncoveredUsed ∧ (f t).log = t.log)
    (unresolved : ∀ t, UnresolvedOk t → UnresolvedOk (f t)) :
    Moves (Grows c n) (update f : CrlProgram Unit) := by
  intro s
  obtain ⟨nodes, hashHead, flag, log⟩ := same s.data
  exact grows_of_same (Nat.le_refl _) nodes hashHead flag log (unresolved _)

theorem sameEncoding_grows {previous certificate : Bytes} :
    Moves (Grows c n) (sameEncoding previous certificate) := by
  refine .bind grows_charge fun _ => ?_
  split
  · exact .pure _
  · exact .bind grows_charge fun _ => .pure _

theorem sameEncoding_gives {previous certificate : Bytes} {same : Bool}
    (given : Gives (sameEncoding previous certificate) s same s') :
    same = decide (previous = certificate) ∧ s'.data = s.data := by
  simp only [sameEncoding, gives_bind, gives_charge] at given
  obtain ⟨_, _, ⟨-, rfl⟩, given⟩ := given
  split at given
  · rename_i different
    obtain ⟨rfl, rfl⟩ := gives_pure.mp given
    have other : previous ≠ certificate := fun same => different (by rw [same])
    simp [other]
  · simp only [gives_bind, gives_charge, gives_pure] at given
    obtain ⟨_, _, ⟨-, rfl⟩, rfl, rfl⟩ := given
    exact ⟨rfl, rfl⟩

variable {certificate : Bytes} {index : Nat}

theorem nodeScan_grows {nodes : List Node} :
    Moves (Grows c n) (nodeScan certificate index nodes) := by
  induction nodes generalizing index with
  | nil => exact .pure _
  | cons node rest ih =>
    refine .bind sameEncoding_grows fun same => ?_
    split
    · exact .pure _
    · exact ih

theorem nodeScan_gives {nodes : List Node} {found : Option Nat}
    (given : Gives (nodeScan certificate index nodes) s found s') : s'.data = s.data ∧
      (∀ i, found = some i → ∃ j node, i = index + j ∧ nodes[j]? = some node ∧
        node.certificate = certificate) ∧
      (found = none → ∀ node ∈ nodes, node.certificate ≠ certificate) := by
  induction nodes generalizing index s with
  | nil =>
    simp only [nodeScan, gives_pure] at given
    obtain ⟨rfl, rfl⟩ := given
    simp
  | cons node rest ih =>
    simp only [nodeScan, gives_bind] at given
    obtain ⟨same, middle, compared, given⟩ := given
    obtain ⟨rfl, kept⟩ := sameEncoding_gives compared
    split at given
    · rename_i equal
      obtain ⟨rfl, rfl⟩ := gives_pure.mp given
      refine ⟨kept, ?_, by simp⟩
      rintro i ⟨⟩
      exact ⟨0, node, rfl, rfl, by simpa using equal⟩
    · rename_i different
      obtain ⟨kept', hit, miss⟩ := ih given
      refine ⟨kept'.trans kept, ?_, ?_⟩
      · intro i hFound
        obtain ⟨j, node, rfl, found, same⟩ := hit i hFound
        exact ⟨j + 1, node, by omega, found, same⟩
      · intro none other member
        rcases List.mem_cons.mp member with rfl | member
        · simpa using different
        · exact miss none other member

theorem chainScan_grows {passes : Nat} {cursor : Option Nat} :
    Moves (Grows c n) (chainScan certificate passes cursor) := by
  induction passes generalizing cursor with
  | zero => cases cursor with
    | none => exact .pure _
    | some cursor => exact .throw _
  | succ passes ih =>
    cases cursor with
    | none => exact .pure _
    | some cursor =>
      refine .bind grows_data fun table => ?_
      split
      · exact .throw _
      · refine .bind sameEncoding_grows fun same => ?_
        split
        · exact .pure _
        · exact ih

theorem chainScan_gives {passes : Nat} {cursor found : Option Nat}
    (given : Gives (chainScan certificate passes cursor) s found s') : s'.data = s.data ∧
      (∀ i, found = some i → ∃ node, s.data.nodes[i]? = some node ∧
        node.certificate = certificate) ∧
      (found = none → ∀ i node, Linked s.data.nodes cursor i → s.data.nodes[i]? = some node →
        node.certificate ≠ certificate) := by
  induction passes generalizing cursor s with
  | zero =>
    cases cursor with
    | some cursor => simp [chainScan] at given
    | none =>
      simp only [chainScan, gives_pure] at given
      obtain ⟨rfl, rfl⟩ := given
      refine ⟨rfl, by simp, ?_⟩
      rintro _ i node ⟨⟩
  | succ passes ih =>
    cases cursor with
    | none =>
      simp only [chainScan, gives_pure] at given
      obtain ⟨rfl, rfl⟩ := given
      refine ⟨rfl, by simp, ?_⟩
      rintro _ i node ⟨⟩
    | some cursor =>
      simp only [chainScan, gives_bind, gives_data] at given
      obtain ⟨_, _, ⟨rfl, rfl⟩, given⟩ := given
      cases hNode : s.data.nodes[cursor]? with
      | none => simp [hNode] at given
      | some node =>
        simp only [hNode, gives_bind] at given
        obtain ⟨same, middle, compared, given⟩ := given
        obtain ⟨rfl, kept⟩ := sameEncoding_gives compared
        split at given
        · rename_i equal
          obtain ⟨rfl, rfl⟩ := gives_pure.mp given
          refine ⟨kept, ?_, by simp⟩
          rintro i ⟨⟩
          exact ⟨node, hNode, by simpa using equal⟩
        · rename_i different
          obtain ⟨kept', hit, miss⟩ := ih given
          rw [kept] at hit miss
          refine ⟨kept'.trans kept, hit, ?_⟩
          intro none i other linked hOther
          cases linked with
          | here =>
            rw [hNode] at hOther
            cases hOther
            simpa using different
          | next found rest =>
            rw [hNode] at found
            cases found
            exact miss none i other rest hOther

variable {nodes new : List Node} {i : Nat}

theorem getElem?_append_some {node : Node} (found : nodes[i]? = some node) :
    (nodes ++ new)[i]? = some node := by
  obtain ⟨inside, -⟩ := List.getElem?_eq_some_iff.mp found
  rw [List.getElem?_append_left inside]
  exact found

theorem Linked.append {cursor : Option Nat} (linked : Linked nodes cursor i) :
    Linked (nodes ++ new) cursor i := by
  induction linked with
  | here => exact .here
  | next found rest ih => exact .next (getElem?_append_some found) ih

theorem Founded.append {uncovered : Prop} {log : List Mark}
    (founded : Founded c nodes uncovered log) : Founded c (nodes ++ new) uncovered log := by
  induction log with
  | nil => trivial
  | cons m older ih =>
    refine ⟨?_, ih founded.2⟩
    intro use member
    rcases founded.1 use member with anchored | established
    · exact .inl anchored
    · refine .inr fun certificate listed => ?_
      obtain ⟨i, node, found, rest⟩ := established certificate listed
      exact ⟨i, node, getElem?_append_some found, rest⟩

theorem statusIn_of_unlogged {log : List Mark} (unlogged : ∀ m ∈ log, m.node ≠ i) :
    statusIn log i = .undetermined := by
  induction log with
  | nil => rfl
  | cons m log ih =>
    rw [statusIn, if_neg (unlogged m (List.mem_cons_self ..))]
    exact ih fun m member => unlogged m (List.mem_cons_of_mem _ member)

theorem getElem?_append_one {nodes : List Node} {added node : Node}
    (found : (nodes ++ [added])[i]? = some node) :
    nodes[i]? = some node ∨ i = nodes.length ∧ node = added := by
  rcases Nat.lt_or_ge i nodes.length with inside | outside
  · rw [List.getElem?_append_left inside] at found
    exact .inl found
  · rw [List.getElem?_append_right outside] at found
    have last : i - nodes.length = 0 := by
      by_contra other
      rw [List.getElem?_eq_none (by simp; omega)] at found
      cases found
    rw [last] at found
    exact .inr ⟨by omega, by simpa using found.symm⟩

theorem TableOk.append {t : Table} (ok : TableOk c n t)
    (fresh : ∀ node ∈ t.nodes, node.certificate ≠ certificate) (room : t.nodes.length ≠ n.capacity)
    {hashNext : Option Nat} {hashHead : Nat → Option Nat}
    (chained : n.indexed = true → hashNext = t.hashHead (n.hash certificate % n.capacity) ∧
      hashHead = Function.update t.hashHead (n.hash certificate % n.capacity) (some t.nodes.length)) :
    TableOk c n { t.append certificate hashNext with hashHead := hashHead } := by
  have missing : ∀ (i : Nat) (node : Node), t.nodes[i]? = some node →
      node.certificate ≠ certificate :=
    fun i node found => fresh node (List.mem_of_getElem? found)
  have full := ok.room
  refine ⟨?_, ?_, ?_, ?_, ?_, ok.founded.append⟩
  · simp only [Table.append, List.length_append, List.length_singleton]
    omega
  · intro i j a b hi hj same
    rcases getElem?_append_one hi with hi | ⟨rfl, rfl⟩ <;>
      rcases getElem?_append_one hj with hj | ⟨rfl, rfl⟩
    · exact ok.unique i j a b hi hj same
    · exact absurd same (missing i a hi)
    · exact absurd same.symm (missing j b hj)
    · rfl
  · intro indexed i node found
    obtain ⟨rfl, rfl⟩ := chained indexed
    simp only [Table.append]
    rcases getElem?_append_one found with found | ⟨rfl, rfl⟩
    · have linked := @Linked.append t.nodes
        [⟨certificate, .undetermined, t.hashHead (n.hash certificate % n.capacity)⟩] _ _
        (ok.linked indexed i node found)
      by_cases bucket : n.hash node.certificate % n.capacity = n.hash certificate % n.capacity
      · rw [bucket, Function.update_self]
        rw [bucket] at linked
        exact @Linked.next _ t.nodes.length i
          ⟨certificate, .undetermined, t.hashHead (n.hash certificate % n.capacity)⟩ (by simp)
          linked
      · rw [Function.update_of_ne bucket]
        exact linked
    · rw [Function.update_self]
      exact .here
  · intro i node found
    rcases getElem?_append_one found with found | ⟨rfl, rfl⟩
    · exact ok.recorded i node found
    · refine (statusIn_of_unlogged fun m member => ?_).symm
      have := ok.logged m member
      omega
  · intro m member
    have := ok.logged m member
    simp only [Table.append, List.length_append, List.length_singleton]
    omega

theorem grows_append {s : Budgeted Table} {hashNext : Option Nat} {hashHead : Nat → Option Nat}
    (ok : TableOk c n s.data → TableOk c n { s.data.append certificate hashNext with hashHead := hashHead }) :
    Grows c n s
      ⟨s.work, { s.data.append certificate hashNext with hashHead := hashHead }⟩ :=
  ⟨Nat.le_refl _, ⟨_, rfl, by simp⟩, rfl, rfl, id, id, ok⟩

theorem dependencyFind_grows (linear : n.indexed = false) :
    Moves (Grows c n) (dependencyFind n certificate) := by
  unfold dependencyFind
  split
  · exact .throw _
  intro s
  refine exec_bind_after (fun e s' failed => ?_) fun table s' given => ?_
  · have moved := @grows_data Q c n s
    rwa [failed] at moved
  obtain ⟨rfl, rfl⟩ := gives_data.mp given
  refine exec_bind_after (fun e s' failed => ?_) fun found s' given => ?_
  · have moved := @nodeScan_grows Q c n certificate 0 s.data.nodes s
    rwa [failed] at moved
  obtain ⟨kept, -, miss⟩ := nodeScan_gives given
  have moved : Grows c n s s' := nodeScan_grows.of_gives given
  cases found with
  | some index => exact moved
  | none =>
    simp only
    split
    · exact moved
    · rename_i room
      refine IsTrans.trans _ _ _ moved (grows_append fun ok => ?_)
      rw [← kept] at miss room
      exact ok.append (miss rfl) room (by simp [linear])

theorem clearBuckets_grows : Moves (Grows c n) (clearBuckets n) := by
  intro s
  refine exec_bind_after (fun e s' failed => ?_) fun table s' given => ?_
  · have moved := @grows_data Q c n s
    rwa [failed] at moved
  obtain ⟨rfl, rfl⟩ := gives_data.mp given
  split
  · rename_i empty
    refine exec_bind_after (fun e s' failed => ?_) fun _ s' given => ?_
    · have moved := @grows_charge Q c n n.capacity s
      rwa [failed] at moved
    have moved : Grows c n s s' := grows_charge.of_gives given
    obtain ⟨-, rfl⟩ := gives_charge.mp given
    refine IsTrans.trans _ _ _ moved
      ⟨Nat.le_refl _, ⟨[], (List.append_nil _).symm, by simp⟩, rfl, rfl, id, id, ?_⟩
    rintro ⟨room, unique, linked, recorded, logged, founded⟩
    refine ⟨room, unique, ?_, recorded, logged, founded⟩
    intro _ i node found
    have inside : s.data.nodes[i]? = some node := found
    simp [empty] at inside
  · exact Std.Refl.refl _

theorem dependencyFindIndexed_grows (indexed : n.indexed = true) :
    Moves (Grows c n) (dependencyFindIndexed n certificate) := by
  unfold dependencyFindIndexed
  split
  · exact .throw _
  split
  · exact .throw _
  refine .bind clearBuckets_grows fun _ => .bind grows_charge fun _ => ?_
  intro s
  refine exec_bind_after (fun e s' failed => ?_) fun started s' given => ?_
  · cases failed
  obtain ⟨rfl, rfl⟩ := gives_state.mp given
  refine exec_bind_after (fun e s' failed => ?_) fun found s' given => ?_
  · have moved := @chainScan_grows Q c n certificate (s.work + 1)
      (s.data.hashHead (n.hash certificate % n.capacity)) s
    rwa [failed] at moved
  obtain ⟨kept, -, miss⟩ := chainScan_gives given
  have moved : Grows c n s s' := chainScan_grows.of_gives given
  cases found with
  | some index => exact moved
  | none =>
    simp only
    split
    · exact moved
    · rename_i room
      refine IsTrans.trans _ _ _ moved (grows_append fun ok => ?_)
      rw [← kept] at miss room
      refine ok.append (fun node member => ?_) room fun _ => ⟨rfl, rfl⟩
      obtain ⟨i, hNode⟩ := List.mem_iff_getElem?.mp member
      by_contra same
      have linked := ok.linked indexed i node hNode
      rw [same] at linked
      exact miss rfl i node linked hNode same

theorem dependencyAdd_grows : Moves (Grows c n) (dependencyAdd n certificate) := by
  refine .bind grows_charge fun _ => ?_
  split
  · rename_i indexed
    exact dependencyFindIndexed_grows indexed
  · rename_i linear
    exact dependencyFind_grows (by simpa using linear)

theorem dependencyAdd_gives (given : Gives (dependencyAdd n certificate) s index s') :
    ∃ node, s'.data.nodes[index]? = some node ∧ node.certificate = certificate := by
  simp only [dependencyAdd, gives_bind, gives_charge] at given
  obtain ⟨_, _, ⟨-, rfl⟩, given⟩ := given
  split at given
  · simp only [dependencyFindIndexed] at given
    split at given
    · simp at given
    split at given
    · simp at given
    simp only [gives_bind, gives_charge, gives_state] at given
    obtain ⟨_, cleared, -, _, _, ⟨-, rfl⟩, _, _, ⟨rfl, rfl⟩, found, scanned, hScan, given⟩ := given
    obtain ⟨kept, hit, -⟩ := chainScan_gives hScan
    cases found with
    | some i =>
      obtain ⟨rfl, rfl⟩ := gives_pure.mp given
      rw [kept]
      exact hit i rfl
    | none =>
      simp only at given
      split at given
      · simp at given
      · simp only [gives_bind, gives_update, gives_pure] at given
        obtain ⟨_, _, rfl, rfl, rfl⟩ := given
        rw [← kept]
        exact ⟨_, by simp [Table.append]; rfl, rfl⟩
  · simp only [dependencyFind] at given
    split at given
    · simp at given
    simp only [gives_bind, gives_data] at given
    obtain ⟨_, _, ⟨rfl, rfl⟩, found, scanned, hScan, given⟩ := given
    obtain ⟨kept, hit, -⟩ := nodeScan_gives hScan
    cases found with
    | some i =>
      obtain ⟨rfl, rfl⟩ := gives_pure.mp given
      obtain ⟨j, node, rfl, found, same⟩ := hit i rfl
      rw [kept, Nat.zero_add]
      exact ⟨node, found, same⟩
    | none =>
      simp only at given
      split at given
      · simp at given
      · simp only [gives_bind, gives_update, gives_pure] at given
        obtain ⟨_, _, rfl, rfl, rfl⟩ := given
        rw [← kept]
        exact ⟨_, by simp [Table.append]; rfl, rfl⟩

end

end TinyCrypto.X509
