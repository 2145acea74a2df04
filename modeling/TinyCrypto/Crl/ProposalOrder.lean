import TinyCrypto.Crl.Proposals
import TinyCrypto.Crl.Coverage

/-! # The order of proposals

A group merges the proposals of its records and signers one after another. When every two of them
can be ordered, the outcome is that of the highest rank, and where that rank is decided the
sequence does not matter.
-/

namespace TinyCrypto.Crl

open Library Library.Program Library.Metered
open X509 (Time timeValid)

variable {N K : Type}

/-- Merge proposals in turn, as `tc_x509_crl_group` does. -/
def proposalFold (c : Primitives N K) :
    Option Proposal → List Proposal → ScopeProgram K (Option Proposal)
  | chosen, [] => return chosen
  | chosen, candidate :: rest => do
    let merged ← proposalMerge c chosen candidate
    proposalFold c (some merged) rest

/-- A run of `x509_crl_order` answers. -/
def Orders (c : Primitives N K) (left right : Selected) (order : Int) : Prop :=
  ∃ s s', Gives (crlOrder c left right) s order s'

def Highest (c : Primitives N K) (ps : List Proposal) (p : Proposal) : Prop :=
  p ∈ ps ∧ ∀ q ∈ ps, ∃ order, Orders c p.selected q.selected order ∧ 0 ≤ order

section

variable (o : Outside) (c : Primitives N K) (details : List Details)

def rankKey (selected : Selected) : ℕ ×ₗ List ℕ := match c.orderPolicy with
  | .number => (details[selected.effective]?.map fun info => numberKey info.number).getD (toLex (0, []))
  | .thisUpdate =>
    toLex (0, (c.records[selected.effective]?.map fun r => timeKey r.thisUpdate).getD [])

end

variable {o : Outside} {c : Primitives N K} {details : List Details} {left right : Selected}

theorem gives_record {i : Nat} {s s' : Budgeted (Storage K)} {r : Record} :
    Gives (record c i) s r s' ↔ c.records[i]? = some r ∧ s' = s := by
  unfold record
  split
  · rename_i r' found
    rw [gives_pure, found, Option.some.injEq, eq_comm, eq_comm (a := s)]
  · rename_i missing
    simp [missing]

theorem record_pays {i : Nat} {r : Record} (found : c.records[i]? = some r) :
    Pays (record c i : ScopeProgram K Record) r := by
  unfold record
  rw [found]
  exact pays_pure

theorem Orders.sign {order : Int} (orders : Orders (comparing o c details) left right order) :
    order = orderSign (rankKey c details left) (rankKey c details right) ∧
      Pays (crlOrder (comparing o c details) left right) order := by
  obtain ⟨s, s', given⟩ := orders
  unfold crlOrder at given ⊢
  rw [gives_bind] at given
  obtain ⟨a, s₁, readA, given⟩ := given
  rw [gives_bind] at given
  obtain ⟨b, s₂, readB, given⟩ := given
  obtain ⟨foundA, rfl⟩ := gives_record.mp readA
  obtain ⟨foundB, rfl⟩ := gives_record.mp readB
  have paysA := record_pays (c := comparing o c details) foundA
  have paysB := record_pays (c := comparing o c details) foundB
  unfold rankKey
  cases policy : c.orderPolicy with
  | number =>
    have policy' : (comparing o c details).orderPolicy = .number := policy
    rw [policy'] at given
    simp only at given
    split at given
    · exact absurd given gives_throw
    · rename_i numbered
      obtain ⟨_, answered, _⟩ := gives_call.mp given
      obtain ⟨r, info, r', info', _, two, _, four, compared⟩ := compareRecords_ok.mp answered
      refine ⟨?_, pays_bind paysA (pays_bind paysB ?_)⟩
      · rw [(numberCompare_sign.mp compared).2.2, two, four]
        rfl
      · rw [policy']
        simp only [if_neg numbered]
        exact pays_call answered
  | thisUpdate =>
    have policy' : (comparing o c details).orderPolicy = .thisUpdate := policy
    rw [policy'] at given
    simp only at given
    rw [gives_bind] at given
    obtain ⟨_, s₃, _, compared⟩ := given
    obtain ⟨ordered, _⟩ := gives_lift.mp compared
    refine ⟨?_, pays_bind paysA (pays_bind paysB ?_)⟩
    · rw [(timeCompare_ok.mp ordered).2.2, show c.records[left.effective]? = some a from foundA,
        show c.records[right.effective]? = some b from foundB]
      apply orderSign_congr <;> simp [Prod.Lex.toLex_lt_toLex]
    · rw [policy']
      exact pays_bind pays_charge (pays_lift ordered)

section

variable {p q : Proposal} {ps : List Proposal}

def proposalRank (c : Primitives N K) (details : List Details) (p : Proposal) : ℕ ×ₗ List ℕ :=
  rankKey c details p.selected

def scan (c : Primitives N K) (details : List Details) (chosen : Option Proposal)
    (candidate : Proposal) : Proposal :=
  Ranking.step (proposalRank c details) (proposalRank c details) id (tie c) chosen candidate

theorem tie_selected : (tie c p q).selected = p.selected ∨ tie c p q = q := by
  unfold tie
  dsimp only
  split
  · exact .inr rfl
  split
  · exact .inl rfl
  split
  · exact .inl rfl
  split
  · exact .inl rfl
  · exact .inl rfl

theorem Proposal.WellFormed.blend (chosen : p.WellFormed c) (same : Bool) :
    Proposal.WellFormed c { p with
      pendingOnly := p.pendingOnly && q.pendingOnly && same,
      result := if q.result = .unsupported || p.result = .unsupported then .unsupported
        else .invalid } := by
  refine ⟨?_, ?_, chosen.timed, chosen.effective⟩
  · dsimp only
    split
    · exact .inr (.inr rfl)
    · exact .inr (.inl rfl)
  · intro flag
    dsimp only at flag ⊢
    rw [Bool.and_eq_true, Bool.and_eq_true] at flag
    simp [chosen.pending flag.1.1]

theorem Proposal.WellFormed.refuse (chosen : p.WellFormed c) (ok : p.result = .ok) :
    Proposal.WellFormed c { p with result := .invalid } := by
  refine ⟨.inr (.inl rfl), ?_, chosen.timed, chosen.effective⟩
  intro flag
  have unsupported := chosen.pending flag
  rw [ok] at unsupported
  cases unsupported

theorem tie_wellFormed (chosen : p.WellFormed c) (candidate : q.WellFormed c) :
    (tie c p q).WellFormed c := by
  unfold tie
  dsimp only
  split
  · exact candidate
  split
  · exact chosen
  split
  · exact chosen.blend _
  · rename_i ok
    simp only [ne_eq, Bool.or_eq_true, decide_eq_true_eq, not_or, not_not] at ok
    split
    · exact chosen
    · exact chosen.refuse ok.2

theorem proposalMerge_wellFormed {P : Storage K → Prop} {chosen : Option Proposal}
    (known : ∀ p, chosen = some p → p.WellFormed c) (candidate : q.WellFormed c) :
    Keeps P (proposalMerge c chosen q) (·.WellFormed c) := by
  unfold proposalMerge
  split
  · exact keeps_pure candidate
  rename_i p
  have kept := known p rfl
  refine keeps_bind crlOrder_keeps fun order _ => ?_
  dsimp only
  refine keeps_ite (fun _ => keeps_pure kept) fun _ => ?_
  refine keeps_ite (fun _ => keeps_pure candidate) fun _ => ?_
  refine keeps_ite (fun _ => keeps_pure candidate) fun _ => ?_
  refine keeps_ite (fun _ => keeps_pure kept) fun _ => ?_
  refine keeps_ite (fun _ => keeps_pure (kept.blend _)) fun ok => ?_
  simp only [ne_eq, Bool.or_eq_true, decide_eq_true_eq, not_or, not_not] at ok
  refine keeps_bind record_keeps fun _ _ => keeps_bind record_keeps fun _ _ => ?_
  refine keeps_bind keeps_charge fun _ _ => ?_
  refine keeps_bind (keeps_lift (Q := fun _ => True) fun _ _ => trivial) fun _ _ => ?_
  refine keeps_bind (keeps_lift (Q := fun _ => True) fun _ _ => trivial) fun _ _ => keeps_pure ?_
  split
  · exact kept.refuse ok.2
  · exact kept

/-- What attempts leave for their group. -/
def Formed (c : Primitives N K) (d : Storage K) : Prop :=
  (∀ p, d.proposal = some p → p.WellFormed c) ∧ ∀ p, d.unresolved = some p → p.WellFormed c

/-- An attempt notes and proposes what is well formed, when its evidence and selection are dated. -/
theorem attempt_formed {proposes : Bool} {path : X509.SignerPath} {evaluated : Evaluated}
    (timed : evaluated.evidence.Timed) (dated : ∀ selected, evaluated.selected = some selected →
      ∃ record, c.records[selected.effective]? = some record ∧ timeValid record.thisUpdate = true) :
    Keeps (Formed c) (attemptCheck c proposes path evaluated) (fun _ => True) ∧
      Keeps (Formed c) (attemptPublish proposes evaluated) fun _ => True := by
  constructor
  · unfold attemptCheck
    refine keeps_bind (verifyPath_keeps fun d k formed => formed) fun status _ => ?_
    dsimp only
    split
    · rename_i selected _ chosen
      refine keeps_bind (Q := fun _ => True) ?_ fun _ _ => keeps_throw
      unfold notePending
      refine keeps_bind (keeps_data fun d formed => formed.2) fun d known => ?_
      refine keeps_bind (proposalMerge_wellFormed known
        ⟨.inr (.inr rfl), fun _ => rfl, timed, dated _ chosen⟩) fun merged formed => ?_
      refine keeps_update fun d kept => ⟨kept.1, ?_⟩
      rintro p ⟨⟩
      exact formed
    · exact keeps_guard fun _ => keeps_pure trivial
  · unfold attemptPublish
    dsimp only
    split
    · rename_i selected ranked chosen
      refine keeps_update fun d formed => ⟨?_, formed.2⟩
      rintro p ⟨⟩
      refine ⟨?_, fun pending => absurd pending Bool.false_ne_true, timed, dated _ chosen⟩
      simp only [Bool.and_eq_true, Bool.or_eq_true, decide_eq_true_eq, or_assoc] at ranked
      exact ranked.2
    · exact keeps_guard fun _ => keeps_update fun _ formed => formed

theorem agreement_pays (chosen : p.WellFormed c) (candidate : q.WellFormed c) : Pays (do
      let a ← record c q.selected.effective
      let b ← record c p.selected.effective
      charge .limit 1
      let order ← lift (timeCompare a.thisUpdate b.thisUpdate)
      let equal ← lift (evidenceEqual q.evidence p.evidence)
      return if order ≠ 0 || !equal then { p with result := .invalid } else p : ScopeProgram K Proposal)
      (if proposalKey c q = proposalKey c p then p else { p with result := .invalid }) := by
  obtain ⟨a, foundA, validA⟩ := candidate.effective
  obtain ⟨b, foundB, validB⟩ := chosen.effective
  have ordered : timeCompare a.thisUpdate b.thisUpdate =
      .ok (orderSign (timeKey a.thisUpdate) (timeKey b.thisUpdate)) :=
    timeCompare_ok.mpr ⟨validA, validB, rfl⟩
  have equal := evidenceEqual_key candidate.timed chosen.timed
  apply pays_bind (record_pays foundA)
  apply pays_bind (record_pays foundB)
  apply pays_bind pays_charge
  apply pays_bind (pays_lift ordered)
  apply pays_bind (pays_lift equal)
  have keys : proposalKey c q = proposalKey c p ↔
      timeKey a.thisUpdate = timeKey b.thisUpdate ∧ evidenceKey q.evidence = evidenceKey p.evidence := by
    simp only [proposalKey, foundA, foundB, Option.map_some, Option.getD_some, Prod.mk.injEq]
  have answer : (if orderSign (timeKey a.thisUpdate) (timeKey b.thisUpdate) ≠ 0 ||
      !decide (evidenceKey q.evidence = evidenceKey p.evidence) then { p with result := .invalid }
      else p) = if proposalKey c q = proposalKey c p then p else { p with result := .invalid } := by
    by_cases same : proposalKey c q = proposalKey c p
    · rw [if_pos same]
      have both := keys.mp same
      simp [orderSign_zero, both.1, both.2]
    · rw [if_neg same]
      have differ := mt keys.mpr same
      simp only [ne_eq, orderSign_zero, Bool.or_eq_true, decide_eq_true_eq, Bool.not_eq_true',
        decide_eq_false_iff_not]
      rw [if_pos (by tauto)]
  rw [answer]
  exact pays_pure

theorem Proposal.WellFormed.comparing (wellFormed : p.WellFormed c) :
    p.WellFormed (comparing o c details) :=
  ⟨wellFormed.result, wellFormed.pending, wellFormed.timed, wellFormed.effective⟩

theorem proposalMerge_pays {chosen' : Option Proposal}
    (chosen : ∀ p, some p = chosen' → p.WellFormed c) (candidate : q.WellFormed c)
    (ordered : ∀ p, some p = chosen' →
      ∃ order, Orders (comparing o c details) q.selected p.selected order) :
    Pays (proposalMerge (comparing o c details) chosen' q) (scan c details chosen' q) := by
  unfold proposalMerge scan Ranking.step
  cases chosen' with
  | none => exact pays_pure
  | some p =>
    obtain ⟨order, orders⟩ := ordered p rfl
    obtain ⟨same, pays⟩ := orders.sign
    dsimp only
    apply pays_bind pays
    rw [same]
    change Pays _ (if rankKey c details q.selected < rankKey c details p.selected then p
      else if rankKey c details p.selected < rankKey c details q.selected then q
      else tie c p q)
    simp only [orderSign_neg, gt_iff_lt, orderSign_pos]
    split
    · exact pays_pure
    split
    · exact pays_pure
    unfold tie
    dsimp only
    split
    · exact pays_pure
    split
    · exact pays_pure
    split
    · exact pays_pure
    · exact agreement_pays (chosen p rfl).comparing candidate.comparing

theorem scan_wellFormed {chosen : Option Proposal} (before : ∀ p, some p = chosen → p.WellFormed c)
    (candidate : q.WellFormed c) : (scan c details chosen q).WellFormed c := by
  unfold scan Ranking.step
  split
  · exact candidate
  rename_i p
  split
  · exact before p rfl
  split
  · exact candidate
  · exact tie_wellFormed (before p rfl) candidate

theorem scan_selected {chosen : Option Proposal} :
    (∃ p, some p = chosen ∧ (scan c details chosen q).selected = p.selected) ∨
      (scan c details chosen q).selected = q.selected := by
  unfold scan Ranking.step
  split
  · exact .inr rfl
  rename_i p
  split
  · exact .inl ⟨p, rfl, rfl⟩
  split
  · exact .inr rfl
  · rcases tie_selected (c := c) (p := p) (q := q) with same | same
    · exact .inl ⟨p, rfl, same⟩
    · exact .inr (congrArg Proposal.selected same)

def Comparable (c : Primitives N K) (selections : List Selected) : Prop :=
  ∀ left ∈ selections, ∀ right ∈ selections, ∃ order, Orders c left right order

theorem proposalFold_pays {selections : List Selected}
    (comparable : Comparable (comparing o c details) selections) {chosen : Option Proposal}
    (before : ∀ p, some p = chosen → p.WellFormed c ∧ p.selected ∈ selections)
    (all : ∀ p ∈ ps, p.WellFormed c ∧ p.selected ∈ selections) :
    Pays (proposalFold (comparing o c details) chosen ps)
      (ps.foldl (fun s p => some (scan c details s p)) chosen) := by
  induction ps generalizing chosen with
  | nil => exact pays_pure
  | cons p ps ih =>
    have candidate := all p List.mem_cons_self
    unfold proposalFold
    apply pays_bind (proposalMerge_pays (fun s same => (before s same).1) candidate.1 fun s same =>
      comparable p.selected candidate.2 s.selected (before s same).2)
    rw [List.foldl_cons]
    apply ih _ fun q member => all q (List.mem_cons_of_mem p member)
    rintro s same
    cases same
    refine ⟨scan_wellFormed (fun s same => (before s same).1) candidate.1, ?_⟩
    rcases @scan_selected _ _ c details p chosen with
      ⟨s, kept, same⟩ | same
    · exact same ▸ (before s kept).2
    · exact same ▸ candidate.2

def MergedOf (c : Primitives N K) (ps : List Proposal) (s : Proposal) : Prop :=
  (∀ p ∈ ps, p.WellFormed c) →
    Merged c (· ∈ ps) s ∧ s.WellFormed c ∧ ∃ p ∈ ps, p.selected = s.selected

theorem scan_keeps : Ranking.Keeps (proposalRank c details) (proposalRank c details) id (tie c)
    (MergedOf c) where
  freshRank p := rfl
  tieRank s p same := by
    rcases tie_selected (c := c) (p := s) (q := p) with kept | replaced
    · exact congrArg (rankKey c details) kept
    · rw [replaced, same]
  start p wellFormed := by
    have candidate := wellFormed p List.mem_cons_self
    have single := Merged.single candidate
    rw [show (fun q => q = p) = (· ∈ [p]) from funext fun q => propext List.mem_singleton.symm]
      at single
    exact ⟨single, candidate, p, List.mem_cons_self, rfl⟩
  merge ps s p merged _ _ wellFormed := by
    have within (q : Proposal) (member : q ∈ ps) := wellFormed q (List.mem_append_left [p] member)
    have candidate := wellFormed p (List.mem_append_right ps List.mem_cons_self)
    obtain ⟨before, chosen, q, member, same⟩ := merged within
    have after := before.step candidate within
    rw [show also (· ∈ ps) p = (· ∈ ps ++ [p]) from funext fun q => propext (by simp [also])]
      at after
    refine ⟨after, tie_wellFormed chosen candidate, ?_⟩
    rcases tie_selected (c := c) (p := s) (q := p) with kept | replaced
    · exact ⟨q, List.mem_append_left [p] member, same.trans kept.symm⟩
    · exact ⟨p, List.mem_append_right ps List.mem_cons_self, by rw [replaced]⟩

theorem highest_iff (comparable : Comparable (comparing o c details) (ps.map Proposal.selected)) :
    Highest (comparing o c details) ps p ↔
      p ∈ ps ∧ ∀ q ∈ ps, proposalRank c details q ≤ proposalRank c details p := by
  constructor
  · rintro ⟨member, highest⟩
    refine ⟨member, ?_⟩
    intro q member'
    obtain ⟨order, orders, pos⟩ := highest q member'
    rw [orders.sign.1] at pos
    exact not_lt.mp fun less => absurd (orderSign_neg.mpr less) (not_lt.mpr pos)
  · rintro ⟨member, highest⟩
    refine ⟨member, ?_⟩
    intro q member'
    obtain ⟨order, orders⟩ := comparable p.selected (List.mem_map_of_mem member) q.selected
      (List.mem_map_of_mem member')
    refine ⟨order, orders, not_lt.mp ?_⟩
    rw [orders.sign.1, orderSign_neg]
    exact not_lt.mpr (highest q member')

theorem Merged.congr {P Q : Proposal → Prop} (merged : Merged c P p) (same : ∀ q, P q ↔ Q q) :
    Merged c Q p := (funext fun q => propext (same q) : P = Q) ▸ merged

theorem proposalFold_top (nonempty : ps ≠ []) (wellFormed : ∀ p ∈ ps, p.WellFormed c)
    (comparable : Comparable (comparing o c details) (ps.map Proposal.selected)) :
    ∃ s, Pays (proposalFold (comparing o c details) none ps) (some s) ∧ s.WellFormed c ∧
      s.selected ∈ ps.map Proposal.selected ∧
      (∀ p ∈ ps, proposalRank c details p ≤ proposalRank c details s) ∧
      Merged c (Highest (comparing o c details) ps) s := by
  have pays := @proposalFold_pays _ _ _ _ _ _ _ comparable none (fun p none => nomatch none)
    fun p member => ⟨wellFormed p member, List.mem_map_of_mem member⟩
  have holds := @Ranking.Holds.fold _ _ _ _ _ _ _ _ _ (@scan_keeps _ _ c details) none [] rfl ps
  rw [List.nil_append] at holds
  change Ranking.Holds _ _ _ ps (ps.foldl (fun s p => some (scan c details s p)) none) at holds
  cases chosen : ps.foldl (fun s p => some (scan c details s p)) none with
  | none =>
    rw [chosen] at holds
    exact absurd holds nonempty
  | some s =>
    rw [chosen] at holds pays
    obtain ⟨highest, merged⟩ := holds
    obtain ⟨merged, good, p, member, same⟩ := merged fun p member =>
      wellFormed p (Ranking.mem_rank.mp member).1
    have inside := (Ranking.mem_rank.mp member).1
    refine ⟨s, pays, good, List.mem_map.mpr ⟨p, inside, same⟩, highest, ?_⟩
    refine merged.congr fun q => ?_
    refine Ranking.mem_rank.trans (Iff.trans ?_ (highest_iff comparable).symm)
    refine and_congr_right fun member' => ⟨?_, ?_⟩
    · intro rank q' member''
      rw [rank]
      exact highest q' member''
    · intro above
      refine le_antisymm (highest q member') ?_
      have bound := above p inside
      rwa [proposalRank, same] at bound

theorem Merged.keys {P : Proposal → Prop} (one : Merged c P p) (two : Merged c P q)
    (within : ∀ p, P p → p.WellFormed c) (ok : p.result = .ok) (ok' : q.result = .ok) :
    proposalKey c p = proposalKey c q := by
  cases one with
  | agreed known _ _ _ =>
    cases two with
    | agreed _ _ keys _ => exact keys p known ok
    | pending known flag _ => exact absurd (((within q known).pending flag).symm.trans ok') (by decide)
    | invalid bad => exact absurd (bad.symm.trans ok') (by decide)
    | unsupported waits => exact absurd (waits.symm.trans ok') (by decide)
  | pending known flag _ => exact absurd (((within p known).pending flag).symm.trans ok) (by decide)
  | invalid bad => exact absurd (bad.symm.trans ok) (by decide)
  | unsupported waits => exact absurd (waits.symm.trans ok) (by decide)

/-- Proposals of a decided rank are merged to one result in any sequence, and when it is OK to
    equal evidence of the same rank. -/
theorem proposals_any_sequence (o : Outside) (c : Primitives N K) (details : List Details)
    (ps qs : List Proposal) (nonempty : ps ≠ []) (wellFormed : ∀ p ∈ ps, p.WellFormed c)
    (comparable : Comparable (comparing o c details) (ps.map Proposal.selected))
    (decided : Decided c (Highest (comparing o c details) ps)) (perm : ps.Perm qs) :
    ∃ p q, Pays (proposalFold (comparing o c details) none ps) (some p) ∧
      Pays (proposalFold (comparing o c details) none qs) (some q) ∧ p.result = q.result ∧
      (p.result = .ok ∨ p.result = .invalid ∨ p.result = .unsupported) ∧
      (p.result = .ok → evidenceEqual p.evidence q.evidence = .ok true) ∧
      Orders (comparing o c details) p.selected q.selected 0 := by
  have comparable' : Comparable (comparing o c details) (qs.map Proposal.selected) :=
    fun left member right member' =>
      comparable left ((perm.map _).mem_iff.mpr member) right ((perm.map _).mem_iff.mpr member')
  have nonempty' : qs ≠ [] := fun empty => nonempty (empty ▸ perm).eq_nil
  obtain ⟨p, pays, good, from_, above, merged⟩ := proposalFold_top nonempty wellFormed comparable
  obtain ⟨q, pays', good', from', above', merged'⟩ := proposalFold_top nonempty'
    (fun p member => wellFormed p (perm.mem_iff.mpr member)) comparable'
  have same : Highest (comparing o c details) qs = Highest (comparing o c details) ps := by
    funext r
    rw [highest_iff comparable, highest_iff comparable']
    simp only [perm.mem_iff]
  rw [same] at merged'
  have within (r : Proposal) (highest : Highest (comparing o c details) ps r) : r.WellFormed c :=
    wellFormed r highest.1
  have one := merged.verdict decided within
  have two := merged'.verdict decided within
  have results := verdict_unique one two
  refine ⟨p, q, pays, pays', results, one.1, ?_, ?_⟩
  · intro ok
    have keys := merged.keys merged' within ok (results ▸ ok)
    rw [evidenceEqual_key good.timed good'.timed, decide_eq_true (Prod.mk.inj keys).2]
  · obtain ⟨order, orders⟩ := comparable p.selected from_ q.selected
      ((perm.map _).mem_iff.mpr from')
    obtain ⟨a, member, left⟩ := List.mem_map.mp from_
    obtain ⟨b, member', right⟩ := List.mem_map.mp from'
    have lower : proposalRank c details q ≤ proposalRank c details p := by
      have bound := above b (perm.mem_iff.mpr member')
      rwa [proposalRank, right] at bound
    have upper : proposalRank c details p ≤ proposalRank c details q := by
      have bound := above' a (perm.mem_iff.mp member)
      rwa [proposalRank, left] at bound
    have zero : order = 0 := by
      rw [orders.sign.1, orderSign_zero]
      exact le_antisymm upper lower
    exact zero ▸ orders

end

def numberedRecord : Record where
  policy := .ok
  present := extNumber
  critical := 0
  unknownCritical := false
  distribution := ⟨false, false, false, false, 0⟩
  thisUpdate := ⟨2026, 1, 1, 0, 0, 0⟩
  hasNextUpdate := 1
  nextUpdate := ⟨2026, 2, 1, 0, 0, 0⟩

def numberedDetails : Details := ⟨[], [5], [], [], ⟨false, [], [], []⟩, [], none⟩

def numberedPair : Primitives Unit Unit where
  records := [numberedRecord, numberedRecord]
  time := ⟨⟨2026, 1, 15, 0, 0, 0⟩, 0, 0⟩
  deltaPolicy := .completeOnly
  orderPolicy := .number
  scopes := none
  issuer := []
  store := []
  issuerMatches _ _ _ := ⟨0, .ok true⟩
  nameMatches _ _ _ := ⟨0, .ok true⟩
  scopeEqual _ _ := ⟨0, .ok true⟩
  compatible _ _ := ⟨0, .ok false⟩
  numberCompare _ _ := ⟨0, .ok 0⟩
  contentEqual _ _ := ⟨0, .ok true⟩
  signerCheck _ _ := ⟨0, .ok⟩
  find _ := ⟨0, .ok .zero⟩
  candidateMatches _ _ := ⟨0, .ok true⟩
  selectAnchor := .ok
  signerPath _ := ⟨0, false, .error .invalid⟩
  check := none
  hasCache := false
  cacheStore _ := ⟨0, .ok ()⟩

def bytewise : Outside := ⟨fun a b => ⟨1, .ok (decide (a = b))⟩, fun _ => none, fun _ => false, fun _ _ => none⟩

abbrev pairCompared : Primitives Unit Unit := comparing bytewise numberedPair [numberedDetails, numberedDetails]

/-- A proposal of record `i` without reasons. -/
def emptyProposal (i : Nat) (result : Result) (pendingOnly : Bool) : Proposal :=
  ⟨⟨i, none⟩, .zero, result, pendingOnly⟩

theorem emptyProposal_wellFormed {i : Nat} {result : Result} {pendingOnly : Bool} (inside : i < 2)
    (kind : result = .ok ∨ result = .invalid ∨ result = .unsupported)
    (pending : pendingOnly = true → result = .unsupported) :
    (emptyProposal i result pendingOnly).WellFormed numberedPair where
  result := kind
  pending := pending
  timed := ⟨zero_valid, fun found => absurd rfl found, fun found => absurd rfl found⟩
  effective := by
    refine ⟨numberedRecord, ?_, by decide⟩
    match i, inside with
    | 0, _ => rfl
    | 1, _ => rfl

theorem validProposal_wellFormed {i : Nat} (inside : i < 2) :
    (emptyProposal i .ok false).WellFormed numberedPair :=
  emptyProposal_wellFormed inside (.inl rfl) nofun

def idleStorage : Storage Unit := ⟨[], none, false, (), .zero, none, none, .zero, none⟩

theorem numberedPair_comparable {ps : List Proposal}
    (within : ∀ p ∈ ps, p.selected = ⟨0, none⟩ ∨ p.selected = ⟨1, none⟩) :
    Comparable pairCompared (ps.map Proposal.selected) := by
  intro left member right member'
  obtain ⟨p, inside, rfl⟩ := List.mem_map.mp member
  obtain ⟨q, inside', rfl⟩ := List.mem_map.mp member'
  refine ⟨0, ⟨9, idleStorage⟩, ⟨6, idleStorage⟩, ?_⟩
  rcases within p inside with one | one <;> rcases within q inside' with two | two <;>
    rw [one, two] <;> rfl

theorem proposals_any_sequence_pair : ∃ p q,
      Pays (proposalFold pairCompared none [emptyProposal 0 .ok false, emptyProposal 1 .ok false]) (some p) ∧
      Pays (proposalFold pairCompared none [emptyProposal 1 .ok false, emptyProposal 0 .ok false]) (some q) ∧
      p.result = q.result ∧ (p.result = .ok ∨ p.result = .invalid ∨ p.result = .unsupported) ∧
      (p.result = .ok → evidenceEqual p.evidence q.evidence = .ok true) ∧
      Orders pairCompared p.selected q.selected 0 := by
  refine proposals_any_sequence _ _ _ _ _ (List.cons_ne_nil _ _) ?_ ?_ ?_ (.swap _ _ _)
  · intro p member
    simp only [List.mem_cons, List.not_mem_nil, or_false] at member
    rcases member with rfl | rfl <;> exact validProposal_wellFormed (by decide)
  · apply numberedPair_comparable
    intro p member
    simp only [List.mem_cons, List.not_mem_nil, or_false] at member
    rcases member with rfl | rfl
    · exact .inl rfl
    · exact .inr rfl
  · refine .inl ?_
    rintro p ⟨member, _⟩
    simp only [List.mem_cons, List.not_mem_nil, or_false] at member
    rcases member with rfl | rfl <;> rfl

/-- A pending selection that its own valid proposal resolves when it comes next is lost when the
    proposal of another CRL comes between. -/
theorem pending_sequence_matters : ∃ (ps qs : List Proposal) (p q : Proposal), ps ≠ [] ∧
      (∀ p ∈ ps, p.WellFormed numberedPair) ∧
      Comparable pairCompared (ps.map Proposal.selected) ∧ ps.Perm qs ∧
      Pays (proposalFold pairCompared none ps) (some p) ∧
      Pays (proposalFold pairCompared none qs) (some q) ∧ p.result = .ok ∧ q.result = .unsupported := by
  have pending : (emptyProposal 0 .unsupported true).WellFormed numberedPair :=
    emptyProposal_wellFormed (by decide) (.inr (.inr rfl)) fun _ => rfl
  have wellFormed (p : Proposal) (member : p ∈ [emptyProposal 0 .unsupported true,
      emptyProposal 0 .ok false, emptyProposal 1 .ok false]) : p.WellFormed numberedPair := by
    simp only [List.mem_cons, List.not_mem_nil, or_false] at member
    rcases member with rfl | rfl | rfl
    · exact pending
    · exact validProposal_wellFormed (by decide)
    · exact validProposal_wellFormed (by decide)
  have comparable : Comparable pairCompared
      ([emptyProposal 0 .unsupported true, emptyProposal 0 .ok false,
        emptyProposal 1 .ok false].map Proposal.selected) := by
    apply numberedPair_comparable
    intro p member
    simp only [List.mem_cons, List.not_mem_nil, or_false] at member
    rcases member with rfl | rfl | rfl
    · exact .inl rfl
    · exact .inl rfl
    · exact .inr rfl
  have perm : [emptyProposal 0 .unsupported true, emptyProposal 0 .ok false,
      emptyProposal 1 .ok false].Perm [emptyProposal 0 .unsupported true, emptyProposal 1 .ok false,
        emptyProposal 0 .ok false] := (List.Perm.swap _ _ _).cons _
  refine ⟨_, _, emptyProposal 0 .ok false, emptyProposal 0 .unsupported false,
    List.cons_ne_nil _ _, wellFormed, comparable, perm, ?_, ?_, rfl, rfl⟩
  · exact proposalFold_pays comparable (by simp) fun p member =>
      ⟨wellFormed p member, List.mem_map_of_mem member⟩
  · exact proposalFold_pays comparable (by simp) fun p member =>
      ⟨wellFormed p (perm.mem_iff.mpr member), List.mem_map_of_mem (perm.mem_iff.mpr member)⟩

end TinyCrypto.Crl
