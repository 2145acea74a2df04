import TinyCrypto.X509.NodeTables

/-! # Runs of lookups

From empty tables the linear scan and the bucket chains answer alike. With any work a lookup changes
no node: it finds one, or adds one, or fails.
-/

namespace TinyCrypto.X509

open Library Library.Program Library.Metered

/-- A failed lookup may have emptied the buckets of a table without nodes, and changes nothing else. -/
def Missed (t t' : Table) : Prop :=
  t' = t ∨ t.nodes = [] ∧ t' = { t with hashHead := fun _ => none }

theorem Missed.nodes {t t' : Table} (missed : Missed t t') : t'.nodes = t.nodes := by
  rcases missed with same | ⟨_, cleared⟩
  · rw [same]
  · rw [cleared]

/-- A lookup answers with the position of the certificate. It added at most this node. -/
structure Placed (t : Table) (certificate : Bytes) (i : Nat) (t' : Table) : Prop where
  inside : i < t'.nodes.length
  same : t'.certificate i = certificate
  nodes : t' = t ∨ i = t.nodes.length ∧
    ∃ link, t'.nodes = t.nodes ++ [⟨certificate, .undetermined, link⟩]

def Looked (t : Table) (certificate : Bytes) : Except Result Nat × Budgeted Table → Prop
  | (.error _, s) => Missed t s.data
  | (.ok i, s) => Placed t certificate i s.data

inductive TableStep
  | lookup (certificate : Bytes)
  | mark (index : Nat) (status : NodeStatus) (used : List Used)

def runSteps (find : Bytes → CrlProgram Nat) : List TableStep → CrlProgram (List (Except Result Nat))
  | [] => return []
  | .lookup certificate :: rest => do
    let outcome ← trial (find certificate)
    let outcomes ← runSteps find rest
    return outcome :: outcomes
  | .mark index status used :: rest => do
    update fun table => table.mark index status used
    runSteps find rest

def tableAfter (find : Bytes → CrlProgram Nat) (t : Table) (work : Nat) (steps : List TableStep) :
    Table :=
  ((runSteps find steps).exec ⟨work, t⟩).2.data

section

variable {n : NodeInput} {t : Table} {certificate : Bytes}

theorem sameEncoding_keeps (previous : Bytes) :
    Keeps (· = t) (sameEncoding previous certificate) (· = decide (previous = certificate)) := by
  unfold sameEncoding
  refine keeps_bind keeps_charge fun _ _ => keeps_ite (fun length => ?_) fun _ => ?_
  · have other : previous ≠ certificate := fun same => length (congrArg List.length same)
    exact keeps_pure (decide_eq_false other).symm
  · exact keeps_bind keeps_charge fun _ _ => keeps_pure rfl

theorem nodeScan_keeps (nodes : List Node) (index : Nat) :
    Keeps (· = t) (nodeScan certificate index nodes)
      (· = (nodes.findIdx? (·.certificate = certificate)).map (index + ·)) := by
  induction nodes generalizing index with
  | nil => exact keeps_pure rfl
  | cons node rest ih =>
    unfold nodeScan
    rw [List.findIdx?_cons]
    refine keeps_bind (sameEncoding_keeps node.certificate) fun same equal => ?_
    subst equal
    by_cases same : node.certificate = certificate
    · simp only [same, decide_true, if_true]
      exact keeps_pure rfl
    · simp only [same, decide_false, Bool.false_eq_true, if_false]
      refine (ih (index + 1)).mono fun found equal => ?_
      rw [equal, Option.map_map]
      congr 1
      funext j
      simp only [Function.comp_apply]
      omega

theorem chainScan_keeps {cursor : Option Nat} {positions : List Nat}
    (chain : Chain t.link cursor positions) (passes : Nat) :
    Keeps (· = t) (chainScan certificate passes cursor)
      (· = positions.find? fun i => t.certificate i = certificate) := by
  induction chain generalizing passes with
  | nil =>
    unfold chainScan
    exact keeps_pure rfl
  | @cons i rest chain ih =>
    cases passes with
    | zero => exact keeps_throw
    | succ passes =>
      unfold chainScan
      refine keeps_bind (keeps_data (Q := (· = t)) fun _ same => same) fun table same => ?_
      subst same
      cases found : table.nodes[i]? with
      | none => exact keeps_throw
      | some node =>
        rw [Table.link, found] at ih
        rw [List.find?_cons, Table.certificate_of found]
        refine keeps_bind (sameEncoding_keeps node.certificate) fun same equal => ?_
        subst equal
        by_cases same : node.certificate = certificate
        · simp only [same, decide_true, if_true]
          exact keeps_pure rfl
        · simp only [same, decide_false, Bool.false_eq_true, if_false]
          exact ih passes

def LooksUp (I : Table → Prop) (find : Bytes → CrlProgram Nat) : Prop :=
  ∀ t certificate, I t → Triple (Data (· = t)) (find certificate)
    (fun i => Data fun t' => Placed t certificate i t' ∧ I t') fun _ => Data fun t' => Missed t t' ∧ I t'

variable {find : Bytes → CrlProgram Nat} {I : Table → Prop}

theorem LooksUp.looked (looksUp : LooksUp I find) (held : I t) (certificate : Bytes) (work : Nat) :
    Looked t certificate ((find certificate).exec ⟨work, t⟩) := by
  have here := looksUp t certificate held ⟨work, t⟩ rfl
  rcases ended : (find certificate).exec ⟨work, t⟩ with ⟨e | i, final⟩ <;> rw [ended] at here
  · exact here.1
  · exact here.1

theorem placed_added (link : Option Nat) (heads : Nat → Option Nat) :
    Placed t certificate t.nodes.length { t.append certificate link with hashHead := heads } := by
  refine ⟨by simp [Table.append], ?_, .inr ⟨rfl, link, rfl⟩⟩
  rw [Table.append_certificate, if_pos rfl]

theorem dependencyFind_looksUp : LooksUp (TableDistinct n) (dependencyFind n) := by
  intro t certificate distinct
  have stays {t' : Table} (same : t' = t) : Missed t t' ∧ TableDistinct n t' := by
    subst same
    exact ⟨.inl rfl, distinct⟩
  unfold dependencyFind
  refine triple_ite (fun _ => triple_throw fun _ same => stays same) fun _ => ?_
  refine triple_bind (triple_data (Q := fun table t' => table = t ∧ t' = t) fun _ same =>
    ⟨same, same⟩) fun table => triple_fact (fun _ both => both.1) fun same => ?_
  subst same
  refine triple_bind ((nodeScan_keeps table.nodes 0).triple (fun _ both => both.2)
    (fun _ _ same answer => And.intro answer same) fun _ same => stays same) fun found =>
    triple_fact (fun _ both => both.1) fun answer => ?_
  subst answer
  cases missing : table.nodes.findIdx? (·.certificate = certificate) with
  | some i =>
    obtain ⟨inside, same⟩ := findIdx_some missing
    refine triple_pure_data (d := table) (fun _ both => both.2) ?_
    dsimp only
    rw [Nat.zero_add]
    exact ⟨⟨inside, same, .inl rfl⟩, distinct⟩
  | none =>
    refine triple_ite (fun _ => triple_throw fun s both => stays both.2) fun full => ?_
    refine triple_bind (triple_update (Q := fun _ t' => t' = table.append certificate none)
      fun d both => by rw [both.2]) fun _ => triple_pure_data (fun _ added => added) ?_
    exact ⟨placed_added none table.hashHead,
      distinct.append full (fun i => findIdx_none missing) none table.hashHead⟩

theorem clearBuckets_triple (indexed : TableIndexed n t) : Triple (Data (· = t)) (clearBuckets n)
      (fun _ => Data fun t' => Missed t t' ∧ TableIndexed n t' ∧
        Buckets t'.hashHead t'.link (t'.bucket n) (· < t'.nodes.length))
      fun _ => Data fun t' => Missed t t' ∧ TableIndexed n t' := by
  unfold clearBuckets
  refine triple_bind (triple_data (Q := fun table t' => table = t ∧ t' = t) fun _ same =>
    ⟨same, same⟩) fun table => triple_fact (fun _ both => both.1) fun same => ?_
  subst same
  refine triple_ite (fun empty => ?_) fun some => ?_
  · have nothing : ∀ i, ¬i < table.nodes.length := by simp [empty]
    have cleared : Buckets (fun _ => none) table.link (table.bucket n) (· < table.nodes.length) :=
      Buckets.empty (fun _ => rfl) nothing
    refine triple_bind (triple_charge fun d both => ?_) fun _ => triple_update fun d both => ?_
    · rw [both.2]
      exact ⟨.inl rfl, indexed⟩
    · rw [both.2]
      exact ⟨.inr ⟨empty, rfl⟩, ⟨⟨indexed.room, indexed.unique⟩, fun _ => cleared⟩, cleared⟩
  · exact triple_pure_data (fun _ both => both.2) ⟨.inl rfl, indexed, indexed.buckets some⟩

theorem dependencyFindIndexed_looksUp : LooksUp (TableIndexed n) (dependencyFindIndexed n) := by
  intro t certificate indexed
  have stays {t' : Table} (same : t' = t) : Missed t t' ∧ TableIndexed n t' := by
    subst same
    exact ⟨.inl rfl, indexed⟩
  unfold dependencyFindIndexed
  refine triple_ite (fun _ => triple_throw fun _ same => stays same) fun _ => ?_
  refine triple_ite (fun _ => triple_throw fun _ same => stays same) fun _ => ?_
  refine triple_bind (clearBuckets_triple indexed) fun _ => ?_
  refine triple_bind (triple_charge fun _ cleared => ⟨cleared.1, cleared.2.1⟩) fun _ => ?_
  rintro ⟨work, t₁⟩ ⟨missed, indexed₁, buckets⟩
  dsimp only at missed indexed₁ buckets
  rw [exec_bind, exec_state]
  obtain ⟨positions, chain, descends, within⟩ := buckets.chain (n.hash certificate % n.capacity)
  have scan := @chainScan_keeps _ certificate _ _ chain (work + 1)
  rw [indexed₁.toTableDistinct.find within] at scan
  dsimp only
  suffices searched : Triple (Data (· = t₁)) _ _ _ from searched ⟨work, t₁⟩ rfl
  refine triple_bind (scan.triple (fun _ same => same) (fun _ _ same answer => And.intro answer same)
    fun d same => ?_) fun found => triple_fact (fun _ both => both.1) fun answer => ?_
  · subst same
    exact ⟨missed, indexed₁⟩
  subst answer
  cases found : t₁.nodes.findIdx? (·.certificate = certificate) with
  | some i =>
    obtain ⟨inside, same⟩ := findIdx_some found
    refine triple_pure_data (d := t₁) (fun _ both => both.2) ⟨⟨inside, same, ?_⟩, indexed₁⟩
    rcases missed with same | ⟨empty, cleared⟩
    · exact .inl same
    · simp [cleared, empty] at inside
  | none =>
    refine triple_ite (fun _ => triple_throw fun s both => ?_) fun full => ?_
    · have same : s.data = t₁ := both.2
      change Missed t s.data ∧ TableIndexed n s.data
      rw [same]
      exact ⟨missed, indexed₁⟩
    refine triple_bind (triple_update (Q := fun _ t' => t' = t₁.push n certificate)
      fun d both => by rw [both.2, Table.push]) fun _ => triple_pure_data (fun _ added => added) ?_
    have placed := @placed_added t₁ certificate
      (t₁.hashHead (n.hash certificate % n.capacity))
      (Function.update t₁.hashHead (n.hash certificate % n.capacity) (some t₁.nodes.length))
    refine ⟨⟨placed.inside, placed.same, .inr ⟨congrArg List.length missed.nodes,
      t₁.hashHead (n.hash certificate % n.capacity), ?_⟩⟩,
      indexed₁.push full buckets fun i => findIdx_none found⟩
    rw [← missed.nodes]
    rfl

theorem Table.mark_certificate (index : Nat) (status : NodeStatus) (used : List Used) (i : Nat) :
    (t.mark index status used).certificate i = t.certificate i := by
  unfold Table.certificate Table.mark
  rw [List.getElem?_modify]
  cases t.nodes[i]? with
  | none => split <;> rfl
  | some node => split <;> rfl

theorem Table.mark_link (index : Nat) (status : NodeStatus) (used : List Used) (i : Nat) :
    (t.mark index status used).link i = t.link i := by
  unfold Table.link Table.mark
  rw [List.getElem?_modify]
  cases t.nodes[i]? with
  | none => split <;> rfl
  | some node => split <;> rfl

theorem Table.mark_length (index : Nat) (status : NodeStatus) (used : List Used) :
    (t.mark index status used).nodes.length = t.nodes.length := List.length_modify ..

theorem TableDistinct.mark (distinct : TableDistinct n t) (index : Nat) (status : NodeStatus)
    (used : List Used) : TableDistinct n (t.mark index status used) := by
  refine ⟨?_, fun i j inside inside' same => ?_⟩
  · rw [Table.mark_length]
    exact distinct.room
  · rw [Table.mark_length] at inside inside'
    rw [Table.mark_certificate, Table.mark_certificate] at same
    exact distinct.unique i j inside inside' same

theorem TableIndexed.mark (indexed : TableIndexed n t) (index : Nat) (status : NodeStatus)
    (used : List Used) : TableIndexed n (t.mark index status used) := by
  refine ⟨indexed.toTableDistinct.mark index status used, fun some => ?_⟩
  have some' : t.nodes ≠ [] := by
    rw [← List.length_pos_iff, Table.mark_length, List.length_pos_iff] at some
    exact some
  refine (indexed.buckets some').frame (fun _ => rfl) (fun i _ => Table.mark_link ..) (fun i => ?_)
    fun i _ => ?_
  · rw [Table.mark_length]
  · rw [Table.bucket, Table.bucket, Table.mark_certificate]

theorem LooksUp.runs (looksUp : LooksUp I find)
    (marks : ∀ t index status used, I t → I (t.mark index status used)) (steps : List TableStep) :
    Keeps I (runSteps find steps) fun _ => True := by
  induction steps with
  | nil => exact keeps_pure trivial
  | cons step rest ih =>
    cases step with
    | lookup certificate =>
      have looks : Keeps I (find certificate) fun _ => True := fun s before =>
        Triple.mono (looksUp s.data certificate before) (fun _ same => same)
          (fun _ _ after => ⟨after.2, trivial⟩) (fun _ _ after => after.2) s rfl
      exact keeps_bind (keeps_trial looks) fun _ _ => keeps_bind ih fun _ _ => keeps_pure trivial
    | mark index status used =>
      exact keeps_bind (keeps_update fun t held => marks t index status used held) fun _ _ => ih

def markNode (nodes : Nodes) (index : Nat) (status : NodeStatus) : Nodes :=
  nodes.modify index fun node => (node.1, status)

def lookupNodes (capacity : Nat) : Nodes → List TableStep → List (Except Result Nat) × Nodes
  | nodes, [] => ([], nodes)
  | nodes, .lookup certificate :: rest =>
    let looked := lookupNode capacity nodes certificate
    let later := lookupNodes capacity looked.2 rest
    (looked.1 :: later.1, later.2)
  | nodes, .mark index status _ :: rest => lookupNodes capacity (markNode nodes index status) rest

theorem Table.mark_view (index : Nat) (status : NodeStatus) (used : List Used) :
    (t.mark index status used).view = markNode t.view index status := by
  unfold Table.view Table.mark markNode
  apply List.ext_getElem?
  intro i
  rw [List.getElem?_map, List.getElem?_modify, List.getElem?_modify, List.getElem?_map]
  cases t.nodes[i]? with
  | none => split <;> rfl
  | some node => split <;> rfl

theorem runSteps_reaches
    (finds : ∀ t certificate, I t → ∃ t',
      Reaches (find certificate) t (lookupNode n.capacity t.view certificate).1 t' ∧
      t'.view = (lookupNode n.capacity t.view certificate).2 ∧ I t')
    (marks : ∀ t index status used, I t → I (t.mark index status used)) (steps : List TableStep)
    {t : Table} (start : I t) :
    ∃ t', Reaches (runSteps find steps) t (.ok (lookupNodes n.capacity t.view steps).1) t' ∧
      t'.view = (lookupNodes n.capacity t.view steps).2 := by
  induction steps generalizing t with
  | nil => exact ⟨t, reaches_pure, rfl⟩
  | cons step rest ih =>
    cases step with
    | lookup certificate =>
      obtain ⟨t₁, looked, view, held⟩ := finds t certificate start
      obtain ⟨t', later, view'⟩ := ih held
      rw [view] at later view'
      exact ⟨t', reaches_bind (reaches_trial looked) (reaches_bind later reaches_pure), view'⟩
    | mark index status used =>
      obtain ⟨t', later, view'⟩ := ih (marks t index status used start)
      rw [Table.mark_view] at later view'
      exact ⟨t', reaches_bind reaches_update later, view'⟩

theorem TableIndexed.ends (indexed : TableIndexed n t) (some : t.nodes ≠ []) (b passes work : Nat)
    (enough : t.nodes.length ≤ passes) :
    (chainScan certificate passes (t.hashHead b)).exec ⟨work, t⟩ =
      (chainScan certificate t.nodes.length (t.hashHead b)).exec ⟨work, t⟩ := by
  obtain ⟨positions, chain, short, _⟩ := indexed.chain some b
  exact chainScan_passes chain (Nat.le_trans short enough) short work

theorem TableDistinct.start (empty : t.nodes = []) : TableDistinct n t := by
  refine ⟨by simp [empty], fun i j inside => ?_⟩
  simp [empty] at inside

theorem TableIndexed.start (empty : t.nodes = []) : TableIndexed n t :=
  ⟨TableDistinct.start empty, fun some => absurd empty some⟩

/-- From empty tables both lookups answer alike in every run with enough work, and with any work
    each leaves a table in order and changes no node. -/
theorem node_tables_agree (n : NodeInput) (room : n.capacity ≠ 0) (linear indexed : Table)
    (empty : linear.nodes = []) (empty' : indexed.nodes = []) (steps : List TableStep) :
    (∃ outcomes linear' indexed',
      Reaches (runSteps (dependencyFind n) steps) linear (.ok outcomes) linear' ∧
      Reaches (runSteps (dependencyFindIndexed n) steps) indexed (.ok outcomes) indexed' ∧
      linear'.view = indexed'.view) ∧ ∀ work,
      let t := tableAfter (dependencyFind n) linear work steps
      let t' := tableAfter (dependencyFindIndexed n) indexed work steps
      TableDistinct n t ∧ TableIndexed n t' ∧
      (∀ certificate left, Looked t certificate ((dependencyFind n certificate).exec ⟨left, t⟩) ∧
        Looked t' certificate ((dependencyFindIndexed n certificate).exec ⟨left, t'⟩)) ∧
      ∀ certificate b passes left, t'.nodes ≠ [] → t'.nodes.length ≤ passes →
        (chainScan certificate passes (t'.hashHead b)).exec ⟨left, t'⟩ =
          (chainScan certificate t'.nodes.length (t'.hashHead b)).exec ⟨left, t'⟩ := by
  have marks (t : Table) index status used (held : TableDistinct n t) := held.mark index status used
  have marks' (t : Table) index status used (held : TableIndexed n t) := held.mark index status used
  have starts : TableDistinct n linear := TableDistinct.start empty
  have starts' : TableIndexed n indexed := TableIndexed.start empty'
  refine ⟨?_, fun work => ?_⟩
  · obtain ⟨linear', reaches, view⟩ := runSteps_reaches (I := fun _ => True)
      (fun t certificate _ => (dependencyFind_reaches n t certificate).imp fun _ found =>
        ⟨found.1, found.2, trivial⟩) (fun _ _ _ _ _ => trivial) steps trivial (t := linear)
    obtain ⟨indexed', reaches', view'⟩ := runSteps_reaches
      (fun t certificate held => dependencyFindIndexed_reaches held room certificate) marks' steps
      starts'
    have same : linear.view = indexed.view := by rw [Table.view, Table.view, empty, empty']
    rw [same] at reaches view
    exact ⟨_, linear', indexed', reaches, reaches', view.trans view'.symm⟩
  · have distinct : TableDistinct n (tableAfter (dependencyFind n) linear work steps) :=
      (dependencyFind_looksUp.runs marks steps).after starts (fun _ _ after => after.1)
        fun _ _ after => after
    have held : TableIndexed n (tableAfter (dependencyFindIndexed n) indexed work steps) :=
      (dependencyFindIndexed_looksUp.runs marks' steps).after starts' (fun _ _ after => after.1)
        fun _ _ after => after
    exact ⟨distinct, held, fun certificate left => ⟨dependencyFind_looksUp.looked distinct _ _,
      dependencyFindIndexed_looksUp.looked held _ _⟩,
      fun certificate b passes left some enough => held.ends some b passes left enough⟩

def twoNodes : NodeInput := ⟨2, true, fun _ => 5, 1⟩

/-- A certificate found twice, with a mark between, another one, and one too many. -/
def crowdedSteps : List TableStep :=
  [.lookup [1], .mark 0 .good [], .lookup [1], .lookup [2], .lookup [3]]

theorem node_tables_agree_crowded : (∃ outcomes linear' indexed',
      Reaches (runSteps (dependencyFind twoNodes) crowdedSteps) (.empty false) (.ok outcomes) linear' ∧
      Reaches (runSteps (dependencyFindIndexed twoNodes) crowdedSteps) (.empty false) (.ok outcomes)
        indexed' ∧ linear'.view = indexed'.view) ∧
    lookupNodes 2 [] crowdedSteps = ([.ok 0, .ok 0, .ok 1, .error .limit],
      [([1], .good), ([2], .undetermined)]) :=
  ⟨(node_tables_agree twoNodes (by decide) (.empty false) (.empty false) rfl rfl crowdedSteps).1, rfl⟩

end

end TinyCrypto.X509
