import TinyCrypto.Crl.Scopes
import TinyCrypto.Crl.Comparisons

/-! # Merging proposals of one rank

Once a merge is paid for, it is a step of a scan by rank. Of the proposals of the highest rank
only a summary matters: whether one is unsupported or invalid, whether those with OK agree, and
which selections are pending.
-/

namespace TinyCrypto.Crl

open Library
open X509 (Time timeValid)

variable {N K : Type}

def timeKey (t : Time) : List ℕ := [t.year, t.month, t.day, t.hour, t.minute, t.second]

theorem timeKey_inj {left right : Time} : timeKey left = timeKey right ↔ left = right := by
  cases left
  cases right
  simp [timeKey]

theorem firstDifference_sign {left right : List ℕ} (same : left.length = right.length) :
    (match (left.zip right).find? fun pair => pair.1 ≠ pair.2 with
    | some pair => if pair.1 < pair.2 then (-1 : Int) else 1
    | none => 0) = orderSign left right := by
  induction left generalizing right with
  | nil =>
    cases right with
    | nil => decide
    | cons b right => cases same
  | cons a left ih =>
    cases right with
    | nil => cases same
    | cons b right =>
      rcases Nat.lt_trichotomy a b with less | equal | greater
      · simp [List.zip_cons_cons, less, less.ne,
          orderSign_of_lt (List.cons_lt_cons_iff.mpr (.inl less))]
      · subst equal
        have rest := ih (Nat.succ.inj same)
        rw [show orderSign (a :: left) (a :: right) = orderSign left right from
          orderSign_congr (by simp) (by simp), ← rest]
        simp [List.zip_cons_cons]
      · simp [List.zip_cons_cons, greater.ne', greater.not_gt,
          orderSign_of_gt (List.cons_lt_cons_iff.mpr (.inl greater))]

theorem timeOrder_sign (left right : Time) :
    timeOrder left right = orderSign (timeKey left) (timeKey right) :=
  firstDifference_sign rfl

theorem timeCompare_ok {left right : Time} {order : Int} :
    timeCompare left right = .ok order ↔ timeValid left = true ∧ timeValid right = true ∧
      order = orderSign (timeKey left) (timeKey right) := by
  unfold timeCompare
  rw [timeOrder_sign]
  split
  · rename_i valid
    rw [Bool.and_eq_true] at valid
    simp [valid.1, valid.2, eq_comm]
  · rename_i invalid
    simp only [Bool.and_eq_true, not_and] at invalid
    simp only [reduceCtorEq, false_iff, not_and]
    exact fun left right => absurd right (invalid left)

structure Evidence.Timed (evidence : Evidence) : Prop where
  valid : evidence.Valid
  revokedAt : evidence.revocation.found ≠ 0 → timeValid evidence.revocation.revokedAt = true
  invalidityDate : evidence.revocation.found ≠ 0 → evidence.revocation.hasInvalidityDate ≠ 0 →
    timeValid evidence.revocation.invalidityDate = true

def matchKey (m : EntryMatch) : EntryMatch :=
  { m with
    found := 1,
    invalidityDate :=
      if m.hasInvalidityDate = 0 then EntryMatch.zero.invalidityDate else m.invalidityDate }

def evidenceKey (evidence : Evidence) : Nat × Option EntryMatch := (evidence.reasons,
    if evidence.revocation.found = 0 then none else some (matchKey evidence.revocation))

theorem matchEqual_key {left right : EntryMatch} (leftTime : timeValid left.revokedAt = true)
    (rightTime : timeValid right.revokedAt = true)
    (leftDate : left.hasInvalidityDate ≠ 0 → timeValid left.invalidityDate = true)
    (rightDate : right.hasInvalidityDate ≠ 0 → timeValid right.invalidityDate = true) :
    matchEqual left right = .ok (decide (matchKey left = matchKey right)) := by
  have times : timeCompare left.revokedAt right.revokedAt =
      .ok (orderSign (timeKey left.revokedAt) (timeKey right.revokedAt)) :=
    timeCompare_ok.mpr ⟨leftTime, rightTime, rfl⟩
  unfold matchEqual
  split
  · rename_i differ
    simp only [ne_eq, Bool.or_eq_true, decide_eq_true_eq] at differ
    have unequal : matchKey left ≠ matchKey right := by
      intro same
      simp only [matchKey, EntryMatch.mk.injEq] at same
      exact differ.elim (fun reason => reason same.2.2.1) fun has => has same.2.2.2.2
    rw [decide_eq_false unequal]
    rfl
  rename_i alike
  simp only [ne_eq, Bool.or_eq_true, decide_eq_true_eq, not_or, not_not] at alike
  rw [times]
  change (if orderSign (timeKey left.revokedAt) (timeKey right.revokedAt) ≠ 0 then
    (Except.ok false : Except Result Bool) else _) = _
  split
  · rename_i later
    rw [ne_eq, orderSign_zero, timeKey_inj] at later
    have unequal : matchKey left ≠ matchKey right := by
      intro same
      simp only [matchKey, EntryMatch.mk.injEq] at same
      exact later same.1
    rw [decide_eq_false unequal]
  rename_i together
  rw [ne_eq, not_not, orderSign_zero, timeKey_inj] at together
  split
  · rename_i undated
    have equal : matchKey left = matchKey right := by
      simp [matchKey, alike.1, together, ← alike.2, undated]
    rw [decide_eq_true equal]
    rfl
  · rename_i dated
    have dates : timeCompare left.invalidityDate right.invalidityDate =
        .ok (orderSign (timeKey left.invalidityDate) (timeKey right.invalidityDate)) :=
      timeCompare_ok.mpr ⟨leftDate dated, rightDate (alike.2 ▸ dated), rfl⟩
    rw [dates]
    change (Except.ok (decide (orderSign (timeKey left.invalidityDate)
      (timeKey right.invalidityDate) = 0)) : Except Result Bool) = _
    congr 1
    rw [decide_eq_decide, orderSign_zero, timeKey_inj]
    simp [matchKey, alike.1, together, ← alike.2, dated]

def statusOf (evidence : Evidence) : Status := if evidence.revocation.found ≠ 0 then .revoked
  else if evidence.reasons = X509.allReasons then .good
  else .undetermined

theorem Evidence.Timed.status {evidence : Evidence} (timed : evidence.Timed) :
    evidenceStatus evidence = .ok (statusOf evidence) := by
  obtain ⟨status, given⟩ := timed.valid
  unfold evidenceStatus at given ⊢
  split at given
  · cases given
  · rename_i accepted
    rw [if_neg accepted]
    rfl

theorem statusOf_revoked {evidence : Evidence} :
    statusOf evidence = .revoked ↔ evidence.revocation.found ≠ 0 := by
  unfold statusOf
  split
  · simp [*]
  · split <;> simp [*]

theorem statusOf_congr {left right : Evidence} (same : evidenceKey left = evidenceKey right) :
    statusOf left = statusOf right := by
  simp only [evidenceKey, Prod.mk.injEq] at same
  have found : left.revocation.found = 0 ↔ right.revocation.found = 0 := by
    have entries := same.2
    split at entries <;> split at entries <;> simp_all
  unfold statusOf
  rw [same.1]
  by_cases none : left.revocation.found = 0
  · simp [none, found.mp none]
  · simp [none, mt found.mpr none]

theorem evidenceEqual_key {left right : Evidence} (timed : left.Timed) (timed' : right.Timed) :
    evidenceEqual left right = .ok (decide (evidenceKey left = evidenceKey right)) := by
  unfold evidenceEqual
  rw [timed.status, timed'.status]
  change (if statusOf left ≠ statusOf right || left.reasons ≠ right.reasons then
    (Except.ok false : Except Result Bool) else _) = _
  split
  · rename_i differ
    have unequal : evidenceKey left ≠ evidenceKey right := by
      intro same
      simp only [ne_eq, Bool.or_eq_true, decide_eq_true_eq] at differ
      exact differ.elim (fun status => status (statusOf_congr same)) fun reasons =>
        reasons (Prod.mk.inj same).1
    rw [decide_eq_false unequal]
  rename_i alike
  simp only [ne_eq, Bool.or_eq_true, decide_eq_true_eq, not_or, not_not] at alike
  split
  · rename_i revoked
    have found := statusOf_revoked.mp revoked
    have found' := statusOf_revoked.mp (alike.1 ▸ revoked)
    rw [matchEqual_key (timed.revokedAt found) (timed'.revokedAt found')
      (timed.invalidityDate found) (timed'.invalidityDate found')]
    congr 1
    rw [decide_eq_decide]
    simp [evidenceKey, alike.2, found, found']
  · rename_i notRevoked
    have none := not_not.mp (mt statusOf_revoked.mpr notRevoked)
    have none' := not_not.mp (mt statusOf_revoked.mpr (alike.1 ▸ notRevoked))
    have equal : evidenceKey left = evidenceKey right := by
      simp [evidenceKey, alike.2, none, none']
    rw [decide_eq_true equal]
    rfl

structure Proposal.WellFormed (c : Primitives N K) (p : Proposal) : Prop where
  result : p.result = .ok ∨ p.result = .invalid ∨ p.result = .unsupported
  pending : p.pendingOnly = true → p.result = .unsupported
  timed : p.evidence.Timed
  effective : ∃ record, c.records[p.selected.effective]? = some record ∧
    timeValid record.thisUpdate = true

def proposalKey (c : Primitives N K) (p : Proposal) : List ℕ × Nat × Option EntryMatch :=
  ((c.records[p.selected.effective]?.map fun record => timeKey record.thisUpdate).getD [],
    evidenceKey p.evidence)

def tie (c : Primitives N K) (chosen candidate : Proposal) : Proposal :=
  let same := candidate.selected = chosen.selected
  if same && candidate.result = .ok && chosen.pendingOnly then candidate
  else if same && chosen.result = .ok && candidate.pendingOnly then chosen
  else if candidate.result ≠ .ok || chosen.result ≠ .ok then
    { chosen with
      pendingOnly := chosen.pendingOnly && candidate.pendingOnly && same,
      result := if candidate.result = .unsupported || chosen.result = .unsupported then .unsupported
        else .invalid }
  else if proposalKey c candidate = proposalKey c chosen then chosen
  else { chosen with result := .invalid }

def Settles (p : Proposal) : Prop := p.result = .unsupported ∧ p.pendingOnly = false

def Refused (c : Primitives N K) (P : Proposal → Prop) : Prop := (∃ p, P p ∧ p.result = .invalid) ∨
    ∃ p q, P p ∧ P q ∧ p.result = .ok ∧ q.result = .ok ∧ proposalKey c p ≠ proposalKey c q

inductive Merged (c : Primitives N K) (P : Proposal → Prop) (s : Proposal) : Prop where
  | agreed : P s → s.result = .ok →
      (∀ p, P p → p.result = .ok → proposalKey c p = proposalKey c s) →
      (∀ p, P p → p.result ≠ .ok → p.pendingOnly = true ∧ p.selected = s.selected) →
      Merged c P s
  | pending : P s → s.pendingOnly = true →
      (∀ p, P p → p.pendingOnly = true ∧ p.selected = s.selected) → Merged c P s
  | invalid : s.result = .invalid → s.pendingOnly = false → Refused c P →
      (∀ p, P p → p.result = .unsupported → p.pendingOnly = true ∧ p.selected = s.selected ∧
        ∃ q, P q ∧ q.result = .ok ∧ q.selected = s.selected) → Merged c P s
  | unsupported : s.result = .unsupported → s.pendingOnly = false → ((∃ p, P p ∧ Settles p) ∨
        ∃ p, P p ∧ p.pendingOnly = true ∧
          ((∃ q, P q ∧ q.selected ≠ p.selected) ∨ Refused c P)) → Merged c P s

section

variable {c : Primitives N K} {P : Proposal → Prop} {s a : Proposal}

def also (P : Proposal → Prop) (a : Proposal) : Proposal → Prop := fun p => P p ∨ p = a

theorem Refused.also (refused : Refused c P) : Refused c (also P a) := by
  rcases refused with ⟨p, known, invalid⟩ | ⟨p, q, known, known', rest⟩
  · exact .inl ⟨p, .inl known, invalid⟩
  · exact .inr ⟨p, q, .inl known, .inl known', rest⟩

theorem WellFormed.cases (wellFormed : a.WellFormed c) :
    (a.result = .ok ∧ a.pendingOnly = false) ∨ (a.result = .invalid ∧ a.pendingOnly = false) ∨
      (a.result = .unsupported ∧ a.pendingOnly = true) ∨ Settles a := by
  have pending := wellFormed.pending
  unfold Settles
  rcases wellFormed.result with result | result | result <;>
    cases flag : a.pendingOnly <;> simp_all

theorem Merged.single (wellFormed : a.WellFormed c) : Merged c (· = a) a := by
  rcases WellFormed.cases wellFormed with ⟨ok, _⟩ | ⟨invalid, flag⟩ | ⟨_, flag⟩ | settles
  · refine .agreed rfl ok ?_ ?_
    · rintro p rfl _
      rfl
    · rintro p rfl failed
      exact absurd ok failed
  · refine .invalid invalid flag (.inl ⟨a, rfl, invalid⟩) ?_
    rintro p rfl unsupported
    rw [invalid] at unsupported
    cases unsupported
  · refine .pending rfl flag ?_
    rintro p rfl
    exact ⟨flag, rfl⟩
  · exact .unsupported settles.1 settles.2 (.inl ⟨a, rfl, settles⟩)

theorem same_fields {result : Result} {flag : Bool} (given : s.result = result)
    (given' : s.pendingOnly = flag) : { s with pendingOnly := flag, result := result } = s := by
  subst given given'
  rfl

theorem Merged.step_agreed (wellFormed : a.WellFormed c) (known : P s) (ok : s.result = .ok)
    (open_ : s.pendingOnly = false)
    (keys : ∀ p, P p → p.result = .ok → proposalKey c p = proposalKey c s)
    (rest : ∀ p, P p → p.result ≠ .ok → p.pendingOnly = true ∧ p.selected = s.selected) :
    Merged c (also P a) (tie c s a) := by
  rcases WellFormed.cases wellFormed with ⟨good, flag⟩ | ⟨bad, flag⟩ | ⟨waits, flag⟩ | settles
  · by_cases same : proposalKey c a = proposalKey c s
    · have kept : tie c s a = s := by simp [tie, ok, open_, good, flag, same]
      rw [kept]
      refine .agreed (.inl known) ok ?_ ?_
      · rintro p (old | rfl) result
        · exact keys p old result
        · exact same
      · rintro p (old | rfl) result
        · exact rest p old result
        · exact absurd good result
    · have refused : tie c s a = { s with result := .invalid } := by
        simp [tie, ok, open_, good, flag, same]
      rw [refused]
      refine .invalid rfl open_ (.inr ⟨a, s, .inr rfl, .inl known, good, ok, same⟩) ?_
      rintro p (old | rfl) result
      · have waits := rest p old (by rw [result]; decide)
        exact ⟨waits.1, waits.2, s, .inl known, ok, rfl⟩
      · rw [good] at result
        cases result
  · have refused : tie c s a = { s with pendingOnly := false, result := .invalid } := by
      simp [tie, ok, open_, bad, flag]
    rw [refused]
    refine .invalid rfl rfl (.inl ⟨a, .inr rfl, bad⟩) ?_
    rintro p (old | rfl) result
    · have waits := rest p old (by rw [result]; decide)
      exact ⟨waits.1, waits.2, s, .inl known, ok, rfl⟩
    · rw [bad] at result
      cases result
  · by_cases same : a.selected = s.selected
    · have kept : tie c s a = s := by simp [tie, ok, open_, waits, flag, same]
      rw [kept]
      refine .agreed (.inl known) ok ?_ ?_
      · rintro p (old | rfl) result
        · exact keys p old result
        · rw [waits] at result
          cases result
      · rintro p (old | rfl) result
        · exact rest p old result
        · exact ⟨flag, same⟩
    · have lost : tie c s a = { s with pendingOnly := false, result := .unsupported } := by
        simp [tie, ok, open_, waits, same]
      rw [lost]
      exact .unsupported rfl rfl (.inr ⟨a, .inr rfl, flag, .inl ⟨s, .inl known, Ne.symm same⟩⟩)
  · have lost : tie c s a = { s with pendingOnly := false, result := .unsupported } := by
      simp [tie, ok, open_, settles.1, settles.2]
    rw [lost]
    exact .unsupported rfl rfl (.inl ⟨a, .inr rfl, settles⟩)

theorem Merged.step_pending (wellFormed : a.WellFormed c) (known : P s)
    (result : s.result = .unsupported) (pending : s.pendingOnly = true)
    (all : ∀ p, P p → p.pendingOnly = true ∧ p.selected = s.selected)
    (within : ∀ p, P p → p.WellFormed c) : Merged c (also P a) (tie c s a) := by
  by_cases same : a.selected = s.selected
  · rcases WellFormed.cases wellFormed with ⟨good, flag⟩ | ⟨bad, flag⟩ | ⟨waits, flag⟩ | settles
    · have replaced : tie c s a = a := by simp [tie, pending, good, same]
      rw [replaced]
      refine .agreed (.inr rfl) good ?_ ?_
      · rintro p (old | rfl) ok
        · have unsupported := (within p old).pending (all p old).1
          rw [ok] at unsupported
          cases unsupported
        · rfl
      · rintro p (old | rfl) failed
        · exact ⟨(all p old).1, (all p old).2.trans same.symm⟩
        · exact absurd good failed
    · have lost : tie c s a = { s with pendingOnly := false, result := .unsupported } := by
        simp [tie, result, pending, bad, flag, same]
      rw [lost]
      exact .unsupported rfl rfl
        (.inr ⟨s, .inl known, pending, .inr (.inl ⟨a, .inr rfl, bad⟩)⟩)
    · have kept : tie c s a = { s with pendingOnly := true, result := .unsupported } := by
        simp [tie, result, pending, waits, flag, same]
      rw [kept, same_fields result pending]
      refine .pending (.inl known) pending ?_
      rintro p (old | rfl)
      · exact all p old
      · exact ⟨flag, same⟩
    · have lost : tie c s a = { s with pendingOnly := false, result := .unsupported } := by
        simp [tie, result, settles.1, settles.2, same]
      rw [lost]
      exact .unsupported rfl rfl (.inl ⟨a, .inr rfl, settles⟩)
  · have lost : tie c s a = { s with pendingOnly := false, result := .unsupported } := by
      simp [tie, result, same]
    rw [lost]
    exact .unsupported rfl rfl (.inr ⟨s, .inl known, pending, .inl ⟨a, .inr rfl, same⟩⟩)

theorem Merged.step_invalid (wellFormed : a.WellFormed c) (bad : s.result = .invalid)
    (open_ : s.pendingOnly = false) (refused : Refused c P)
    (rest : ∀ p, P p → p.result = .unsupported → p.pendingOnly = true ∧ p.selected = s.selected ∧
      ∃ q, P q ∧ q.result = .ok ∧ q.selected = s.selected) : Merged c (also P a) (tie c s a) := by
  have stays (notWaiting : a.result ≠ .unsupported) : Merged c (also P a) (tie c s a) := by
    have kept : tie c s a = { s with pendingOnly := false, result := .invalid } := by
      simp [tie, bad, open_, notWaiting]
    rw [kept, same_fields bad open_]
    refine .invalid bad open_ refused.also ?_
    rintro p (old | rfl) result
    · obtain ⟨flag, same, q, held, facts⟩ := rest p old result
      exact ⟨flag, same, q, .inl held, facts⟩
    · exact absurd result notWaiting
  have lost (waits : a.result = .unsupported) :
      tie c s a = { s with pendingOnly := false, result := .unsupported } := by
    simp [tie, bad, open_, waits]
  rcases WellFormed.cases wellFormed with ⟨good, _⟩ | ⟨bad', _⟩ | ⟨waits, flag⟩ | settles
  · exact stays (by rw [good]; decide)
  · exact stays (by rw [bad']; decide)
  · rw [lost waits]
    exact .unsupported rfl rfl (.inr ⟨a, .inr rfl, flag, .inr refused.also⟩)
  · rw [lost settles.1]
    exact .unsupported rfl rfl (.inl ⟨a, .inr rfl, settles⟩)

theorem Merged.step (merged : Merged c P s) (wellFormed : a.WellFormed c)
    (within : ∀ p, P p → p.WellFormed c) : Merged c (also P a) (tie c s a) := by
  cases merged with
  | agreed known ok keys rest =>
    have open_ : s.pendingOnly = false := by
      by_contra flag
      have unsupported := (within s known).pending (Bool.not_eq_false _ ▸ flag)
      rw [ok] at unsupported
      cases unsupported
    exact step_agreed wellFormed known ok open_ keys rest
  | pending known flag all =>
    exact step_pending wellFormed known ((within s known).pending flag) flag all within
  | invalid bad open_ refused rest => exact step_invalid wellFormed bad open_ refused rest
  | unsupported waits open_ why =>
    have kept : tie c s a = { s with pendingOnly := false, result := .unsupported } := by
      simp [tie, waits, open_]
    rw [kept, same_fields waits open_]
    refine .unsupported waits open_ ?_
    rcases why with ⟨p, known, settles⟩ | ⟨p, known, flag, ⟨q, known', differ⟩ | refused⟩
    · exact .inl ⟨p, .inl known, settles⟩
    · exact .inr ⟨p, .inl known, flag, .inl ⟨q, .inl known', differ⟩⟩
    · exact .inr ⟨p, .inl known, flag, .inr refused.also⟩

/-- No order of the proposals can change what their merge says: none is pending, one is beyond
    repair, every one with OK has another selection than some pending one, or all have one
    selection with nothing invalid or in disagreement. -/
def Decided (c : Primitives N K) (P : Proposal → Prop) : Prop :=
  (∀ p, P p → p.pendingOnly = false) ∨ (∃ p, P p ∧ Settles p) ∨
    (∀ p, P p → p.result = .ok → ∃ q, P q ∧ q.pendingOnly = true ∧ q.selected ≠ p.selected) ∨
    ((∀ p q, P p → P q → p.selected = q.selected) ∧ ¬Refused c P)

def verdict (c : Primitives N K) (P : Proposal → Prop) (result : Result) : Prop :=
  (result = .ok ∨ result = .invalid ∨ result = .unsupported) ∧
    (result = .unsupported ↔ (∃ p, P p ∧ Settles p) ∨ (∃ p, P p ∧ p.pendingOnly = true) ∧
      ∀ p, P p → p.result = .ok → ∃ q, P q ∧ q.pendingOnly = true ∧ q.selected ≠ p.selected) ∧
    (result = .ok → ¬Refused c P) ∧ (result = .invalid → Refused c P)

theorem Merged.verdict (merged : Merged c P s) (decided : Decided c P)
    (within : ∀ p, P p → p.WellFormed c) : verdict c P s.result := by
  cases merged with
  | agreed known ok keys rest =>
    have none : ¬∃ p, P p ∧ Settles p := by
      rintro ⟨p, held, waits, flag⟩
      have pending := (rest p held (by rw [waits]; decide)).1
      rw [flag] at pending
      cases pending
    have accepted : ¬Refused c P := by
      rintro (⟨p, held, bad⟩ | ⟨p, q, held, held', good, good', differ⟩)
      · have failed : p.result ≠ .ok := by rw [bad]; decide
        have waits := (within p held).pending (rest p held failed).1
        rw [bad] at waits
        cases waits
      · exact differ ((keys p held good).trans (keys q held' good').symm)
    refine ⟨.inl ok, ?_, fun _ => accepted, fun bad => absurd (ok.symm.trans bad) (by decide)⟩
    constructor
    · intro waits
      rw [ok] at waits
      cases waits
    · rintro (settles | ⟨_, apart⟩)
      · exact absurd settles none
      · obtain ⟨q, held, flag, differ⟩ := apart s known ok
        have failed : q.result ≠ .ok := by
          rw [(within q held).pending flag]
          decide
        exact absurd (rest q held failed).2 differ
  | pending known flag all =>
    have waits := (within s known).pending flag
    refine ⟨.inr (.inr waits), ⟨fun _ => .inr ⟨⟨s, known, flag⟩, ?_⟩, fun _ => waits⟩, ?_, ?_⟩
    · intro p held ok
      have unsupported := (within p held).pending (all p held).1
      rw [ok] at unsupported
      cases unsupported
    · intro ok
      rw [waits] at ok
      cases ok
    · intro bad
      rw [waits] at bad
      cases bad
  | invalid bad open_ refused rest =>
    refine ⟨.inr (.inl bad), ?_, fun ok => absurd (bad.symm.trans ok) (by decide), fun _ => refused⟩
    constructor
    · intro waits
      rw [bad] at waits
      cases waits
    · rintro (⟨p, held, settles⟩ | ⟨⟨p, held, flag⟩, apart⟩)
      · have pending := (rest p held settles.1).1
        rw [settles.2] at pending
        cases pending
      · obtain ⟨_, _, q, held', ok, same⟩ := rest p held ((within p held).pending flag)
        obtain ⟨p', held'', flag', differ⟩ := apart q held' ok
        have same' := (rest p' held'' ((within p' held'').pending flag')).2.1
        exact absurd (same'.trans same.symm) differ
  | unsupported waits open_ why =>
    refine ⟨.inr (.inr waits), ⟨fun _ => ?_, fun _ => waits⟩,
      fun ok => absurd (waits.symm.trans ok) (by decide),
      fun bad => absurd (waits.symm.trans bad) (by decide)⟩
    rcases why with settles | ⟨p, held, flag, apart⟩
    · exact .inl settles
    rcases decided with none | settles | rest | ⟨one, accepted⟩
    · rw [none p held] at flag
      cases flag
    · exact .inl settles
    · exact .inr ⟨⟨p, held, flag⟩, rest⟩
    · rcases apart with ⟨q, held', differ⟩ | refused
      · exact absurd (one q p held' held) differ
      · exact absurd refused accepted

theorem verdict_unique {result result' : Result} (one : verdict c P result)
    (two : verdict c P result') : result = result' := by
  obtain ⟨kind, waits, ok, bad⟩ := one
  obtain ⟨kind', waits', ok', bad'⟩ := two
  have same : result = .unsupported ↔ result' = .unsupported := waits.trans waits'.symm
  rcases kind with rfl | rfl | rfl <;> rcases kind' with rfl | rfl | rfl
  · rfl
  · exact absurd (bad' rfl) (ok rfl)
  · exact absurd (same.mpr rfl) (by decide)
  · exact absurd (bad rfl) (ok' rfl)
  · rfl
  · exact absurd (same.mpr rfl) (by decide)
  · exact absurd (same.mp rfl) (by decide)
  · exact absurd (same.mp rfl) (by decide)
  · rfl

end

end TinyCrypto.Crl
