import TinyCrypto.X509.RevocationEvidence

/-! # Runs of the resolver

Marks are only added, each on top of the marks it relies on. A round that adds
no node and goes on has decided one, so the rounds are bounded.
-/

namespace TinyCrypto.X509

open Library Library.Program Library.Metered

variable {Q : Type} {c : CrlPrimitives Q} {n : NodeInput}

def Lasting : List Mark → Prop
  | [] => True
  | m :: older => statusIn older m.node ≠ .good ∧ statusIn older m.node ≠ .uncovered ∧
      (m.status = .good → m.used ≠ []) ∧ Lasting older

def openNodes (t : Table) : Nat := t.nodes.countP fun node => node.status = .undetermined

variable {status : NodeStatus} {used : List Used} {node : Node} {t : Table}

theorem mark_getElem? {i j : Nat} (found : t.nodes[j]? = some node) :
    (t.mark i status used).nodes[j]? =
      some (if i = j then { node with status := status } else node) := by
  simp only [Table.mark, List.getElem?_modify, found]
  split <;> simp

theorem mark_found {i j : Nat} {marked : Node}
    (found : (t.mark i status used).nodes[j]? = some marked) : ∃ node, t.nodes[j]? = some node ∧
      marked = if i = j then { node with status := status } else node := by
  cases hNode : t.nodes[j]? with
  | none => simp [Table.mark, List.getElem?_modify, hNode] at found
  | some node =>
    rw [mark_getElem? hNode, Option.some.injEq] at found
    exact ⟨node, rfl, found.symm⟩

theorem mark_certificate {i j : Nat} (found : t.nodes[j]? = some node) :
    ∃ marked, (t.mark i status used).nodes[j]? = some marked ∧
      marked.certificate = node.certificate ∧ marked.hashNext = node.hashNext := by
  refine ⟨_, mark_getElem? found, ?_⟩
  split <;> exact ⟨rfl, rfl⟩

variable {i : Nat}

theorem Linked.of_same {nodes nodes' : List Node} {cursor : Option Nat}
    (same : ∀ (j : Nat) (node : Node), nodes[j]? = some node →
      ∃ node', nodes'[j]? = some node' ∧ node'.hashNext = node.hashNext)
    (linked : Linked nodes cursor i) : Linked nodes' cursor i := by
  induction linked with
  | here => exact .here
  | next found rest ih =>
    obtain ⟨node', found', next⟩ := same _ _ found
    rw [← next] at ih
    exact .next found' ih

theorem Founded.of_same {nodes nodes' : List Node} {uncovered : Prop} {log : List Mark}
    (same : ∀ (j : Nat) (node : Node), nodes[j]? = some node →
      ∃ node', nodes'[j]? = some node' ∧ node'.certificate = node.certificate)
    (founded : Founded c nodes uncovered log) : Founded c nodes' uncovered log := by
  induction log with
  | nil => trivial
  | cons m older ih =>
    refine ⟨?_, ih founded.2⟩
    intro use member
    rcases founded.1 use member with anchored | established
    · exact .inl anchored
    · refine .inr fun certificate listed => ?_
      obtain ⟨i, node, found, hCertificate, status⟩ := established certificate listed
      obtain ⟨node', found', hSame⟩ := same i node found
      exact ⟨i, node', found', hSame.trans hCertificate, status⟩

theorem Vouched.grounded (ok : TableOk c n t) {use : Used} (vouched : Vouched c t use)
    {nodes : List Node} {uncovered : Prop}
    (same : ∀ (j : Nat) (node : Node), t.nodes[j]? = some node →
      ∃ node', nodes[j]? = some node' ∧ node'.certificate = node.certificate)
    (allowed : t.uncoveredUsed = some true → uncovered) : Grounded c nodes uncovered t.log use := by
  rcases vouched with anchored | trusted
  · exact .inl anchored
  · refine .inr fun certificate listed => ?_
    obtain ⟨i, node, found, rfl, status⟩ := trusted certificate listed
    obtain ⟨node', found', hSame⟩ := same i node found
    refine ⟨i, node', found', hSame, ?_⟩
    rw [← ok.recorded i node found]
    rcases status with good | ⟨noted, hStatus⟩
    · exact .inl good
    · exact .inr ⟨allowed noted, hStatus⟩

theorem TableOk.mark (ok : TableOk c n t) (inside : i < t.nodes.length)
    (vouched : ∀ use ∈ used, Vouched c t use) : TableOk c n (t.mark i status used) := by
  have same : ∀ (j : Nat) (node : Node), t.nodes[j]? = some node →
      ∃ node', (t.mark i status used).nodes[j]? = some node' ∧
        node'.certificate = node.certificate := by
    intro j node found
    obtain ⟨marked, hMarked, hCertificate, -⟩ := mark_certificate found
    exact ⟨marked, hMarked, hCertificate⟩
  refine ⟨?_, ?_, ?_, ?_, ?_, ?_, ok.founded.of_same same⟩
  · simpa [Table.mark] using ok.room
  · intro j k a b hj hk hSame
    obtain ⟨a', hj', rfl⟩ := mark_found hj
    obtain ⟨b', hk', rfl⟩ := mark_found hk
    refine ok.unique j k a' b' hj' hk' ?_
    split at hSame <;> split at hSame <;> exact hSame
  · intro indexed j marked found
    obtain ⟨node, found', rfl⟩ := mark_found found
    have bucket : (if i = j then { node with status := status } else node).certificate =
        node.certificate := by
      split <;> rfl
    rw [bucket]
    refine Linked.of_same ?_ (ok.linked indexed j node found')
    intro k other hOther
    obtain ⟨marked, hMarked, -, hNext⟩ := mark_certificate hOther
    exact ⟨marked, hMarked, hNext⟩
  · intro j marked found
    obtain ⟨node, found', rfl⟩ := mark_found found
    simp only [Table.mark, statusIn]
    split
    · rfl
    · exact ok.recorded j node found'
  · intro m member
    simp only [Table.mark, List.length_modify]
    rcases List.mem_cons.mp member with rfl | member
    · exact inside
    · exact ok.logged m member
  · intro use member
    refine (vouched use member).grounded ok same fun noted => ?_
    change t.uncoveredUsed.isSome = true
    rw [noted]
    rfl

theorem openNodes_mark {t : Table} {i : Nat} {status : NodeStatus} {used : List Used} {node : Node}
    (found : t.nodes[i]? = some node) (open_ : node.status = .undetermined)
    (decided : status ≠ .undetermined) : openNodes (t.mark i status used) + 1 = openNodes t := by
  unfold openNodes Table.mark
  simp only
  generalize t.nodes = nodes at found
  induction nodes generalizing i with
  | nil => simp at found
  | cons head rest ih =>
    cases i with
    | zero =>
      obtain rfl : head = node := by simpa using found
      simp [List.modify_cons, open_, decided]
    | succ i =>
      have rest := ih (i := i) (by simpa using found)
      simp only [List.modify_succ_cons, List.countP_cons]
      omega

structure Sound {Q : Type} (c : CrlPrimitives Q) (n : NodeInput) (t : Table) : Prop where
  ok : TableOk c n t
  lasting : Lasting t.log

/-- The table after some steps of the resolver. As long as the flag of coverage
    mode stays clear, no mark rests on an UNCOVERED node. -/
structure Advances {Q : Type} (c : CrlPrimitives Q) (n : NodeInput) (s s' : Budgeted Table) :
    Prop where
  kept : ∀ (i : Nat) (node : Node), s.data.nodes[i]? = some node →
    ∃ node', s'.data.nodes[i]? = some node' ∧ node'.certificate = node.certificate
  length : s.data.nodes.length ≤ s'.data.nodes.length
  coverage : s'.data.uncoveredUsed.isSome = s.data.uncoveredUsed.isSome
  flag : s.data.uncoveredUsed = some true → s'.data.uncoveredUsed = some true
  log : ∃ newer, s'.data.log = newer ++ s.data.log
  sound : Sound c n s.data → Sound c n s'.data
  strict : Sound c n s.data → s'.data.uncoveredUsed ≠ some true →
    Founded c s.data.nodes False s.data.log → Founded c s'.data.nodes False s'.data.log

instance : Std.Refl (Advances c n) :=
  ⟨fun _ => ⟨fun _ node found => ⟨node, found, rfl⟩, Nat.le_refl _, rfl, id, ⟨[], rfl⟩, id,
    fun _ _ => id⟩⟩

instance : IsTrans (Budgeted Table) (Advances c n) where
  trans := by
    intro s t u first second
    refine ⟨?_, Nat.le_trans first.length second.length, second.coverage.trans first.coverage,
      fun set => second.flag (first.flag set), ?_,
      fun sound => second.sound (first.sound sound), ?_⟩
    · intro i node found
      obtain ⟨middle, hMiddle, hFirst⟩ := first.kept i node found
      obtain ⟨last, hLast, hSecond⟩ := second.kept i middle hMiddle
      exact ⟨last, hLast, hSecond.trans hFirst⟩
    · obtain ⟨newer, hFirst⟩ := first.log
      obtain ⟨newest, hSecond⟩ := second.log
      exact ⟨newest ++ newer, by rw [hSecond, hFirst, List.append_assoc]⟩
    · intro sound clear founded
      have before : t.data.uncoveredUsed ≠ some true := fun set => clear (second.flag set)
      exact second.strict (first.sound sound) clear (first.strict sound before founded)

theorem Grows.advances {s s' : Budgeted Table} (grows : Grows c n s s') : Advances c n s s' := by
  obtain ⟨new, nodes, -⟩ := grows.nodes
  refine ⟨?_, by simp [nodes], grows.coverage, grows.flag, ⟨[], by simp [grows.log]⟩, ?_, ?_⟩
  · intro i node found
    exact ⟨node, by rw [nodes]; exact getElem?_append_some found, rfl⟩
  · intro sound
    exact ⟨grows.ok sound.ok, by rw [grows.log]; exact sound.lasting⟩
  · intro _ _ founded
    rw [nodes, grows.log]
    exact founded.append

/-- The node `i` may still be marked. -/
def Unsettled (t : Table) (i : Nat) : Prop :=
  ∃ node, t.nodes[i]? = some node ∧ node.status ≠ .good ∧ node.status ≠ .uncovered

theorem Grows.unsettled {s s' : Budgeted Table} (grows : Grows c n s s')
    (unsettled : Unsettled s.data i) : Unsettled s'.data i := by
  obtain ⟨node, found, status⟩ := unsettled
  obtain ⟨new, nodes, -⟩ := grows.nodes
  exact ⟨node, by rw [nodes]; exact getElem?_append_some found, status⟩

variable {s : Budgeted Table}

theorem advances_mark (unsettled : Unsettled s.data i)
    (vouched : ∀ use ∈ used, Vouched c s.data use) (sourced : status = .good → used ≠ []) :
    Advances c n s ⟨s.work, s.data.mark i status used⟩ := by
  obtain ⟨node, found, notGood, notUncovered⟩ := unsettled
  obtain ⟨inside, -⟩ := List.getElem?_eq_some_iff.mp found
  have same : ∀ (j : Nat) (node : Node), s.data.nodes[j]? = some node →
      ∃ node', (s.data.mark i status used).nodes[j]? = some node' ∧
        node'.certificate = node.certificate := by
    intro j node found
    obtain ⟨marked, hMarked, hCertificate, -⟩ := mark_certificate found
    exact ⟨marked, hMarked, hCertificate⟩
  refine ⟨same, by simp [Table.mark], rfl, id, ⟨[_], rfl⟩, ?_, ?_⟩
  · intro sound
    refine ⟨sound.ok.mark inside vouched, ?_, ?_, sourced, sound.lasting⟩
    · rwa [← sound.ok.recorded i node found]
    · rwa [← sound.ok.recorded i node found]
  · intro sound clear founded
    refine ⟨fun use member => ?_, founded.of_same same⟩
    exact (vouched use member).grounded sound.ok same fun set => clear set

theorem evaluateNode_grows : GrowsTable c n (evaluateNode n (nodeEvaluate c n) i) := by
  refine .bind Moves.state fun before => .bind nodeEvaluate_grows fun evaluated =>
    .bind Moves.state fun after => ?_
  split
  · exact .bind (Moves.change fun _ =>
      grows_of_same (Nat.zero_le _) rfl rfl rfl rfl id) fun _ => .throw _
  split
  · exact .throw _
  split
  · split
    · exact .throw _
    · exact .throw _
  · exact .pure _

variable {evidence : Evidence}

theorem evaluateNode_gives {s s' : Budgeted Table}
    (given : Gives (evaluateNode n (nodeEvaluate c n) i) s (.ok evidence) s') :
    EvidenceOk c s'.data evidence := by
  simp only [evaluateNode, gives_bind, gives_state] at given
  obtain ⟨_, _, -, evaluated, middle, hEvaluated, _, _, ⟨rfl, rfl⟩, given⟩ := given
  split at given
  · simp at given
  split at given
  · simp at given
  split at given
  · split at given <;> simp at given
  · obtain ⟨outcome, rfl⟩ := gives_pure.mp given
    exact nodeEvaluate_gives hEvaluated outcome

theorem EvidenceOk.sourced_good (ok : EvidenceOk c t evidence)
    (found : evidenceStatus evidence.coverage = .ok status) :
    status = .good → evidence.used ≠ [] := by
  rintro rfl
  refine ok.sourced ?_
  unfold evidenceStatus at found
  split at found
  · cases found
  split at found
  · split at found <;> cases found
  · split at found
    · rename_i all
      rw [all]
      decide
    · cases found

variable {r : Round}

theorem markUncovered_advances {root i : Nat} (unsettled : Unsettled s.data i) :
    Advances c n s ((markUncovered root i r).exec s).2 := by
  have here : Advances c n s ⟨s.work, s.data.mark i .uncovered []⟩ :=
    advances_mark unsettled (by simp) (by simp)
  refine exec_bind_after (fun _ _ failed => by cases failed) fun _ _ given => ?_
  obtain rfl := gives_update.mp given
  split
  · exact here
  · exact here

theorem markEvidence_advances {root i : Nat} (unsettled : Unsettled s.data i)
    (ok : EvidenceOk c s.data evidence) :
    Advances c n s ((markEvidence root i r evidence).exec s).2 := by
  unfold markEvidence
  simp only
  split
  · exact Std.Refl.refl _
  · exact Std.Refl.refl _
  · rename_i status _ found
    have here : Advances c n s ⟨s.work, s.data.mark i status evidence.used⟩ :=
      advances_mark unsettled ok.vouched (ok.sourced_good found)
    refine exec_bind_after (fun _ _ failed => by cases failed) fun _ _ given => ?_
    obtain rfl := gives_update.mp given
    split
    · exact here
    · exact here

theorem resolveNode_advances {root i : Nat} {r : Round} {s : Budgeted Table}
    (unsettled : Unsettled s.data i) :
    Advances c n s ((resolveNode n (nodeEvaluate c n) root i r).exec s).2 := by
  refine exec_bind_after (fun e s' failed => ?_) fun outcome s' given => ?_
  · have grows : Grows c n s ((evaluateNode n (nodeEvaluate c n) i).exec s).2 :=
      evaluateNode_grows s
    rw [failed] at grows
    exact grows.advances
  have grows : Grows c n s s' := evaluateNode_grows.of_gives given
  split
  · exact grows.advances
  · exact grows.advances
  · exact IsTrans.trans _ _ _ grows.advances (markUncovered_advances (grows.unsettled unsettled))
  · exact grows.advances
  · exact IsTrans.trans _ _ _ grows.advances
      (markEvidence_advances (grows.unsettled unsettled) (evaluateNode_gives given))

theorem Grows.openNodes {s s' : Budgeted Table} (grows : Grows c n s s') :
    openNodes s'.data + s.data.nodes.length = openNodes s.data + s'.data.nodes.length := by
  obtain ⟨new, nodes, open_⟩ := grows.nodes
  have all : new.countP (fun node => node.status = .undetermined) = new.length :=
    List.countP_eq_length.mpr fun node member => by simpa using open_ node member
  simp only [X509.openNodes, nodes, List.countP_append, all, List.length_append]
  omega

/-- A pass of a round that goes on: a node was decided for each one counted,
    and the root was not. -/
structure Passed (root : Nat) (r r' : Round) (s s' : Budgeted Table) : Prop where
  root : Unsettled s.data root → Unsettled s'.data root
  resolved : r.resolved ≤ r'.resolved
  count : openNodes s'.data + r'.resolved + s.data.nodes.length =
    openNodes s.data + r.resolved + s'.data.nodes.length

theorem Passed.trans {root : Nat} {r r' r'' : Round} {s s' s'' : Budgeted Table}
    (first : Passed root r r' s s') (second : Passed root r' r'' s' s'') :
    Passed root r r'' s s'' := by
  refine ⟨fun unsettled => second.root (first.root unsettled),
    Nat.le_trans first.resolved second.resolved, ?_⟩
  have := first.count
  have := second.count
  omega

theorem Grows.passed {root : Nat} {r r' : Round} {s s' : Budgeted Table} (grows : Grows c n s s')
    (same : r'.resolved = r.resolved) : Passed root r r' s s' := by
  refine ⟨grows.unsettled, by rw [same], ?_⟩
  have := grows.openNodes
  omega

theorem passed_mark {root i : Nat} (found : s.data.nodes[i]? = some node)
    (open_ : node.status = .undetermined) (decided : status ≠ .undetermined) (other : i ≠ root) :
    Passed root r { r with resolved := r.resolved + 1 } s
      ⟨s.work, s.data.mark i status used⟩ := by
  refine ⟨?_, Nat.le_succ _, ?_⟩
  · rintro ⟨rootNode, hRoot, hStatus⟩
    refine ⟨rootNode, ?_, hStatus⟩
    change (s.data.mark i status used).nodes[root]? = _
    rw [mark_getElem? hRoot, if_neg other]
  · have := @openNodes_mark s.data _ _ used _ found open_ decided
    simp only [Table.mark, List.length_modify] at this ⊢
    omega

theorem resolveNode_passed {root i : Nat} {r r' : Round} {s s' : Budgeted Table}
    (found : s.data.nodes[i]? = some node) (open_ : i ≠ root → node.status = .undetermined)
    (given : Gives (resolveNode n (nodeEvaluate c n) root i r) s (.next r') s') :
    Passed root r r' s s' := by
  simp only [resolveNode, gives_bind] at given
  obtain ⟨outcome, middle, hEvaluate, given⟩ := given
  have grows : Grows c n s middle := evaluateNode_grows.of_gives hEvaluate
  have start : Passed root r r s middle := grows.passed rfl
  obtain ⟨new, nodes, -⟩ := grows.nodes
  have here : middle.data.nodes[i]? = some node := by
    rw [nodes]
    exact getElem?_append_some found
  split at given
  · simp at given
  · simp at given
  · simp only [markUncovered, gives_bind, gives_update] at given
    obtain ⟨_, _, rfl, given⟩ := given
    split at given
    · simp at given
    · rename_i other
      simp only [gives_pure, Turn.next.injEq] at given
      obtain ⟨rfl, rfl⟩ := given
      exact start.trans (passed_mark here (open_ other) (by simp) other)
  · simp only [gives_pure, Turn.next.injEq] at given
    obtain ⟨rfl, rfl⟩ := given
    refine grows.passed ?_
    split <;> rfl
  · simp only [markEvidence] at given
    split at given
    · simp at given
    · simp only [gives_pure, Turn.next.injEq] at given
      obtain ⟨rfl, rfl⟩ := given
      refine grows.passed ?_
      split <;> rfl
    · rename_i status decided hStatus
      simp only [gives_bind, gives_update] at given
      obtain ⟨_, _, rfl, given⟩ := given
      by_cases other : i = root
      · simp [other] at given
      · simp only [other, if_false, gives_pure, Turn.next.injEq] at given
        obtain ⟨rfl, rfl⟩ := given
        exact start.trans (passed_mark here (open_ other) decided other)

theorem resolveRound_advances {root left i : Nat} {r : Round} {s : Budgeted Table}
    (unsettled : Unsettled s.data root) :
    Advances c n s ((resolveRound n (nodeEvaluate c n) root left i r).exec s).2 := by
  induction left generalizing i r s with
  | zero => exact Std.Refl.refl _
  | succ left ih =>
    refine exec_bind_after (fun _ _ failed => by cases failed) fun _ _ given => ?_
    obtain ⟨rfl, rfl⟩ := gives_data.mp given
    split
    · exact Std.Refl.refl _
    · rename_i node found
      split
      · exact ih unsettled
      · rename_i taken
        have open_ : i ≠ root → node.status = .undetermined := by
          intro other
          simpa [other] using taken
        have here : Unsettled s.data i := by
          by_cases other : i = root
          · rwa [other]
          · exact ⟨node, found, by simp [open_ other], by simp [open_ other]⟩
        have step : Advances c n s
            ((resolveNode n (nodeEvaluate c n) root i r).exec s).2 := resolveNode_advances here
        refine exec_bind_after (fun e s' failed => ?_) fun turn s' given => ?_
        · rwa [failed] at step
        rw [given] at step
        cases turn with
        | next r' =>
          exact IsTrans.trans _ _ _ step
            (ih ((resolveNode_passed found open_ given).root unsettled))
        | leave evidence => exact step

theorem resolveRound_passed {root left i : Nat} {r r' : Round} {s s' : Budgeted Table}
    (given : Gives (resolveRound n (nodeEvaluate c n) root left i r) s (.next r') s') :
    Passed root r r' s s' := by
  have idle : ∀ (r : Round) (s : Budgeted Table), Passed root r r s s :=
    fun _ _ => ⟨id, Nat.le_refl _, rfl⟩
  induction left generalizing i r s with
  | zero =>
    simp only [resolveRound, gives_pure, Turn.next.injEq] at given
    obtain ⟨rfl, rfl⟩ := given
    exact idle _ _
  | succ left ih =>
    simp only [resolveRound, gives_bind, gives_data] at given
    obtain ⟨_, _, ⟨rfl, rfl⟩, given⟩ := given
    split at given
    · simp only [gives_pure, Turn.next.injEq] at given
      obtain ⟨rfl, rfl⟩ := given
      exact idle _ _
    · rename_i node found
      split at given
      · exact ih given
      · rename_i taken
        have open_ : i ≠ root → node.status = .undetermined := by
          intro other
          simpa [other] using taken
        simp only [gives_bind] at given
        obtain ⟨turn, middle, hNode, given⟩ := given
        cases turn with
        | next r => exact (resolveNode_passed found open_ hNode).trans (ih given)
        | leave evidence => simp at given

def Continues (c : CrlPrimitives Q) (n : NodeInput) (root : Nat) (a b : Result × Budgeted Table) :
    Prop :=
  ∃ r, Gives (resolveRound n (nodeEvaluate c n) root n.capacity 0 ⟨0, a.1⟩) a.2 (.next r) b.2 ∧
    (r.resolved = 0 → b.2.data.nodes.length ≠ a.2.data.nodes.length) ∧ r.rootResult = b.1

/-- `k` rounds, each of which leaves the loop going on. -/
inductive Rounds (c : CrlPrimitives Q) (n : NodeInput) (root : Nat) :
    Nat → Result × Budgeted Table → Result × Budgeted Table → Prop
  | none {a : Result × Budgeted Table} : Rounds c n root 0 a a
  | more {k : Nat} {a b d : Result × Budgeted Table} (first : Continues c n root a b)
      (rest : Rounds c n root k b d) : Rounds c n root (k + 1) a d

variable {a b : Result × Budgeted Table}

theorem Continues.advances {root : Nat} (continues : Continues c n root a b)
    (unsettled : Unsettled a.2.data root) : Advances c n a.2 b.2 ∧ Unsettled b.2.data root := by
  obtain ⟨r, given, -, -⟩ := continues
  have advances := @resolveRound_advances _ c n _ n.capacity 0 ⟨0, a.1⟩ _ unsettled
  rw [given] at advances
  exact ⟨advances, (resolveRound_passed given).root unsettled⟩

theorem Rounds.advances {root k : Nat} (rounds : Rounds c n root k a b)
    (unsettled : Unsettled a.2.data root) : Advances c n a.2 b.2 ∧ Unsettled b.2.data root := by
  induction rounds with
  | none => exact ⟨Std.Refl.refl _, unsettled⟩
  | more first rest ih =>
    obtain ⟨step, unsettled⟩ := first.advances unsettled
    obtain ⟨steps, unsettled⟩ := ih unsettled
    exact ⟨IsTrans.trans _ _ _ step steps, unsettled⟩

theorem Rounds.spent {root k : Nat} (rounds : Rounds c n root k a b)
    (unsettled : Unsettled a.2.data root) : k + openNodes b.2.data + 2 * a.2.data.nodes.length ≤
      openNodes a.2.data + 2 * b.2.data.nodes.length := by
  induction rounds with
  | none => omega
  | more first rest ih =>
    obtain ⟨step, later⟩ := first.advances unsettled
    have rest := ih later
    have longer := step.length
    obtain ⟨r, given, goesOn, -⟩ := first
    have count := (resolveRound_passed given).count
    simp only at count
    rcases Nat.eq_zero_or_pos r.resolved with zero | some
    · have added := goesOn zero
      omega
    · omega

theorem openNodes_le (t : Table) : openNodes t ≤ t.nodes.length := List.countP_le_length

theorem Rounds.bounded {root k : Nat} (rounds : Rounds c n root k a b)
    (unsettled : Unsettled a.2.data root) (room : a.2.data.nodes.length ≤ n.capacity)
    (same : b.2.data.nodes.length = a.2.data.nodes.length) : k ≤ n.capacity := by
  have spent := rounds.spent unsettled
  have undecided := openNodes_le a.2.data
  omega

variable {root fuel : Nat} {rootResult : Result}

theorem resolveLoop_none
    (outOfFuel : resolveLoop n (nodeEvaluate c n) root fuel rootResult s = none) :
    ∃ b, Rounds c n root fuel (rootResult, s) b := by
  induction fuel generalizing rootResult s with
  | zero => exact ⟨_, .none⟩
  | succ fuel ih =>
    simp only [resolveLoop] at outOfFuel
    split at outOfFuel
    · cases outOfFuel
    · cases outOfFuel
    · rename_i r s' round
      split at outOfFuel
      · cases outOfFuel
      · rename_i goesOn
        obtain ⟨b, rest⟩ := ih outOfFuel
        refine ⟨b, .more (b := (r.rootResult, s')) ⟨r, round, ?_, rfl⟩ rest⟩
        intro zero same
        simp [zero, same] at goesOn

theorem resolveLoop_ends (sound : Sound c n s.data) (unsettled : Unsettled s.data root)
    (enough : 2 * n.capacity < fuel) :
    (resolveLoop n (nodeEvaluate c n) root fuel rootResult s).isSome = true := by
  rw [Option.isSome_iff_ne_none]
  intro outOfFuel
  obtain ⟨b, rounds⟩ := resolveLoop_none outOfFuel
  obtain ⟨advances, -⟩ := rounds.advances unsettled
  have spent := rounds.spent unsettled
  have undecided := openNodes_le s.data
  have room := (advances.sound sound).ok.room
  simp only at spent
  omega

variable {resolution : Resolution}

theorem resolveLoop_advances (unsettled : Unsettled s.data root)
    (ended : resolveLoop n (nodeEvaluate c n) root fuel rootResult s = some resolution) :
    Advances c n s resolution.after := by
  induction fuel generalizing rootResult s with
  | zero => cases ended
  | succ fuel ih =>
    have advances := @resolveRound_advances _ c n _ n.capacity 0 ⟨0, rootResult⟩ _ unsettled
    simp only [resolveLoop] at ended
    split at ended
    · rename_i round
      rw [round] at advances
      cases ended
      exact advances
    · rename_i round
      rw [round] at advances
      cases ended
      exact advances
    · rename_i r s' round
      rw [round] at advances
      split at ended
      · cases ended
        exact advances
      · have later := (resolveRound_passed round).root unsettled
        exact IsTrans.trans _ _ _ advances (ih later ended)

theorem advances_start (s : Budgeted Table) :
    Advances c n s { s with data := { s.data with sourceFailed := false } } :=
  Grows.advances (grows_of_same (Nat.le_refl _) rfl rfl rfl rfl id)

theorem nodesResolve_advances (unsettled : Unsettled s.data root)
    (ended : nodesResolve n (nodeEvaluate c n) root fuel s = some resolution) :
    Advances c n s resolution.after := by
  simp only [nodesResolve] at ended
  split at ended
  · cases ended
    exact Std.Refl.refl _
  · exact resolveLoop_advances unsettled ended

theorem resolveTarget_advances {fuel : Nat} {target : Bytes}
    (ended : resolveTarget c n fuel target s = some resolution) :
    Advances c n s resolution.after := by
  refine IsTrans.trans _ _ _ (advances_start s) ?_
  have added : Advances c n _ _ := (@dependencyAdd_grows _ c n target
      { s with data := { s.data with sourceFailed := false } }).advances
  simp only [resolveTarget] at ended
  split at ended
  · rename_i failed
    rw [failed] at added
    cases ended
    exact added
  · rename_i root s' given
    rw [given] at added
    obtain ⟨node, found, -⟩ := dependencyAdd_gives given
    rw [found] at ended
    refine IsTrans.trans _ _ _ added ?_
    simp only [Option.map_some] at ended
    split at ended
    · cases ended
      exact Std.Refl.refl _
    · cases ended
      exact Std.Refl.refl _
    · rename_i notGood notUncovered
      refine nodesResolve_advances ⟨node, found, ?_, ?_⟩ ended
      · intro good
        exact notGood (by rw [good])
      · intro uncovered
        exact notUncovered (by rw [uncovered])

theorem resolveTarget_ends {fuel : Nat} {target : Bytes} {s : Budgeted Table}
    (sound : Sound c n s.data) (enough : 2 * n.capacity < fuel) :
    (resolveTarget c n fuel target s).isSome = true := by
  have added : Advances c n _ _ := (@dependencyAdd_grows _ c n target
      { s with data := { s.data with sourceFailed := false } }).advances
  have kept := added.sound ((advances_start s).sound sound)
  simp only [resolveTarget]
  split
  · rfl
  · rename_i root s' given
    rw [given] at kept
    obtain ⟨node, found, -⟩ := dependencyAdd_gives given
    rw [found]
    simp only [Option.map_some]
    split
    · rfl
    · rfl
    · rename_i notGood notUncovered
      simp only [nodesResolve]
      split
      · rfl
      · refine resolveLoop_ends kept ⟨node, found, ?_, ?_⟩ enough
        · intro good
          exact notGood (by rw [good])
        · intro uncovered
          exact notUncovered (by rw [uncovered])

def Decided (t : Table) (certificate : Bytes) (evidence : Evidence) : Prop :=
  ∃ (i : Nat) (node : Node), t.nodes[i]? = some node ∧ node.certificate = certificate ∧
    evidenceStatus evidence.coverage = .ok node.status ∧ node.status ≠ .undetermined

theorem resolveNode_leaves {root i : Nat} {s s' : Budgeted Table}
    (found : s.data.nodes[i]? = some node)
    (given : Gives (resolveNode n (nodeEvaluate c n) root i r) s (.leave evidence) s') :
    i = root ∧ Decided s'.data node.certificate evidence := by
  simp only [resolveNode, gives_bind] at given
  obtain ⟨outcome, middle, hEvaluate, given⟩ := given
  have grows : Grows c n s middle := evaluateNode_grows.of_gives hEvaluate
  obtain ⟨new, nodes, -⟩ := grows.nodes
  have here : middle.data.nodes[i]? = some node := by
    rw [nodes]
    exact getElem?_append_some found
  split at given
  · simp at given
  · simp at given
  · simp only [markUncovered, gives_bind, gives_update] at given
    obtain ⟨_, _, rfl, given⟩ := given
    split at given <;> simp at given
  · simp at given
  · simp only [markEvidence] at given
    split at given
    · simp at given
    · simp at given
    · rename_i status decided hStatus
      simp only [gives_bind, gives_update] at given
      obtain ⟨_, _, rfl, given⟩ := given
      split at given
      · rename_i isRoot
        simp only [gives_pure, Turn.leave.injEq] at given
        obtain ⟨rfl, rfl⟩ := given
        refine ⟨isRoot, i, _, mark_getElem? here, ?_⟩
        rw [if_pos rfl]
        exact ⟨rfl, hStatus, decided⟩
      · simp at given

theorem resolveRound_leaves {root left i : Nat} {s s' : Budgeted Table}
    (given : Gives (resolveRound n (nodeEvaluate c n) root left i r) s (.leave evidence) s')
    (unsettled : Unsettled s.data root) (found : s.data.nodes[root]? = some node) :
    Decided s'.data node.certificate evidence := by
  induction left generalizing i r s node with
  | zero => simp [resolveRound] at given
  | succ left ih =>
    simp only [resolveRound, gives_bind, gives_data] at given
    obtain ⟨_, _, ⟨rfl, rfl⟩, given⟩ := given
    split at given
    · simp at given
    · rename_i visited hVisited
      split at given
      · exact ih given unsettled found
      · rename_i taken
        have open_ : i ≠ root → visited.status = .undetermined := by
          intro other
          simpa [other] using taken
        have here : Unsettled s.data i := by
          by_cases other : i = root
          · rwa [other]
          · exact ⟨visited, hVisited, by simp [open_ other], by simp [open_ other]⟩
        simp only [gives_bind] at given
        obtain ⟨turn, middle, hNode, given⟩ := given
        cases turn with
        | next r' =>
          have advances := @resolveNode_advances _ c n root _ r _ here
          rw [hNode] at advances
          obtain ⟨node', found', same⟩ := advances.kept root node found
          rw [← same]
          exact ih given ((resolveNode_passed hVisited open_ hNode).root unsettled) found'
        | leave evidence' =>
          simp only [gives_pure, Turn.leave.injEq] at given
          obtain ⟨rfl, rfl⟩ := given
          obtain ⟨rfl, decided⟩ := resolveNode_leaves hVisited hNode
          rw [found] at hVisited
          cases hVisited
          exact decided

theorem resolveLoop_decided (unsettled : Unsettled s.data root)
    (found : s.data.nodes[root]? = some node)
    (ended : resolveLoop n (nodeEvaluate c n) root fuel rootResult s = some resolution)
    (outcome : resolution.outcome = .ok evidence) :
    Decided resolution.after.data node.certificate evidence := by
  induction fuel generalizing rootResult s node with
  | zero => cases ended
  | succ fuel ih =>
    simp only [resolveLoop] at ended
    split at ended
    · cases ended
      cases outcome
    · rename_i round
      cases ended
      cases outcome
      exact resolveRound_leaves round unsettled found
    · rename_i r s' round
      split at ended
      · cases ended
        split at outcome <;> cases outcome
      · have advances := @resolveRound_advances _ c n _ n.capacity 0 ⟨0, rootResult⟩ _ unsettled
        rw [round] at advances
        obtain ⟨node', found', same⟩ := advances.kept root node found
        rw [← same]
        exact ih ((resolveRound_passed round).root unsettled) found' ended

theorem resolveTarget_decided {fuel : Nat} {target : Bytes}
    (ended : resolveTarget c n fuel target s = some resolution)
    (outcome : resolution.outcome = .ok evidence) :
    Decided resolution.after.data target evidence := by
  simp only [resolveTarget] at ended
  split at ended
  · cases ended
    cases outcome
  · rename_i root s' given
    obtain ⟨node, found, rfl⟩ := dependencyAdd_gives given
    rw [found] at ended
    simp only [Option.map_some] at ended
    split at ended
    · rename_i good
      cases ended
      cases outcome
      rw [Option.some.injEq] at good
      refine ⟨root, node, found, rfl, ?_, by rw [good]; simp⟩
      rw [good]
      decide
    · cases ended
      cases outcome
    · rename_i notGood notUncovered
      simp only [nodesResolve] at ended
      split at ended
      · cases ended
        cases outcome
      · refine resolveLoop_decided ⟨node, found, ?_, ?_⟩ found ended outcome
        · intro good
          exact notGood (by rw [good])
        · intro uncovered
          exact notUncovered (by rw [uncovered])

end TinyCrypto.X509
