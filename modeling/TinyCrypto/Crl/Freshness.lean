import Mathlib.Algebra.BigOperators.Group.List.Basic
import Mathlib.Tactic.IntervalCases
import TinyCrypto.Crl.Records

/-! # Calendar times and freshness

The seconds of `TC_X509_time_to_unix` are those of the proleptic Gregorian calendar. They keep
the order of times, so validity windows and freshness move one way with the time and the skew.
-/

namespace TinyCrypto.X509

def leapYear (year : Nat) : Bool := year % 4 = 0 && (year % 100 ≠ 0 || year % 400 = 0)

def monthLengths (year : Nat) : List Nat :=
  [31, if leapYear year then 29 else 28, 31, 30, 31, 30, 31, 31, 30, 31, 30, 31]

def yearLength (year : Nat) : Nat := (monthLengths year).sum

/-- The days of the years 1 to `years`. -/
def daysOfYears (years : Nat) : Nat := ((List.range years).map fun y => yearLength (y + 1)).sum

def dayCount (year month day : Nat) : Nat :=
  daysOfYears (year - 1) + ((monthLengths year).take (month - 1)).sum + (day - 1)

def gregorianSeconds (t : Time) : Int :=
  (dayCount t.year t.month t.day - dayCount 1970 1 1 : Int) * 86400 +
    t.hour * 3600 + t.minute * 60 + t.second

variable {year day month skew wider age : Nat} {a b at_ : Time} {seconds now updated : Int}
  {time : Crl.RevocationTime}

theorem leapYear_iff : leapYear year = true ↔ year % 4 = 0 ∧ (year % 100 ≠ 0 ∨ year % 400 = 0) := by
  simp [leapYear]

theorem yearLength_eq (year : Nat) : yearLength year = 365 + if leapYear year then 1 else 0 := by
  unfold yearLength monthLengths
  cases leapYear year <;> rfl

theorem daysOfYears_succ (years : Nat) :
    daysOfYears (years + 1) = daysOfYears years + yearLength (years + 1) := by
  simp [daysOfYears, List.range_succ]

theorem daysOfYears_eq (years : Nat) :
    daysOfYears years + years / 100 = years * 365 + years / 4 + years / 400 := by
  induction years with
  | zero => rfl
  | succ years ih =>
    rw [daysOfYears_succ, yearLength_eq]
    split
    · rename_i leap
      have leap := leapYear_iff.mp leap
      omega
    · rename_i common
      have common := mt leapYear_iff.mpr common
      omega

theorem daysOfYears_epoch : (dayCount 1970 1 1 : Int) = daysToUnixEpoch := by
  have years := daysOfYears_eq 1969
  simp only [dayCount, daysToUnixEpoch, Nat.sub_self, List.take_zero, List.sum_nil, Nat.reduceSub]
  omega

theorem daysOfYears_mono {a b : Nat} (before : a ≤ b) : daysOfYears a ≤ daysOfYears b := by
  induction before with
  | refl => exact le_rfl
  | step _ ih =>
    rw [daysOfYears_succ]
    omega

theorem calendarDate_iff : calendarDate year month day = true ↔
      0 < year ∧ 1 ≤ month ∧ month ≤ 12 ∧ 1 ≤ day ∧ day ≤ (monthLengths year).getD (month - 1) 0 := by
  unfold calendarDate
  have leap : (year % 4 = 0 && (year % 100 ≠ 0 || year % 400 = 0)) = leapYear year := rfl
  rw [leap]
  split
  · rename_i refused
    simp only [Bool.or_eq_true, decide_eq_true_eq] at refused
    simp only [Bool.false_eq_true, false_iff]
    omega
  · rename_i admitted
    simp only [Bool.or_eq_true, decide_eq_true_eq, not_or] at admitted
    obtain ⟨⟨⟨years, low⟩, high⟩, days⟩ := admitted
    simp only [decide_eq_true_eq]
    have lower : 1 ≤ month := by omega
    have upper : month ≤ 12 := by omega
    have pos : 0 < year ∧ 1 ≤ day := by omega
    interval_cases month <;> cases hLeap : leapYear year <;>
      simp [monthLengths, pos.1, pos.2, hLeap]

theorem calendarDate_leap (pos : 0 < year) : calendarDate year 2 29 = leapYear year := by
  rw [Bool.eq_iff_iff, calendarDate_iff]
  unfold monthLengths
  cases leapYear year <;> simp [pos]

theorem monthsBefore_eq {year month : Nat} (lower : 1 ≤ month) (upper : month ≤ 12) :
    ((monthLengths year).take (month - 1)).sum =
      beforeMonth.getD (month - 1) 0 + if month > 2 && leapYear year then 1 else 0 := by
  interval_cases month <;> cases hLeap : leapYear year <;> simp [monthLengths, beforeMonth, hLeap]

variable {t : Time}

theorem timeValid_iff :
    timeValid t = true ↔ t.year ≤ 9999 ∧ calendarDate t.year t.month t.day = true ∧ t.hour ≤ 23 ∧
      t.minute ≤ 59 ∧ t.second ≤ 59 := by
  simp [timeValid, and_assoc]

theorem timeToUnix_eq (valid : timeValid t = true) : timeToUnix t = .ok (gregorianSeconds t) := by
  obtain ⟨-, date, -⟩ := timeValid_iff.mp valid
  obtain ⟨years, lower, upper, days, -⟩ := calendarDate_iff.mp date
  have yearDays := daysOfYears_eq (t.year - 1)
  have monthDays := @monthsBefore_eq t.year t.month lower upper
  simp only [timeToUnix, valid, not_true_eq_false, if_false, calendarDate_leap years, gregorianSeconds,
    Except.ok.injEq, daysOfYears_epoch]
  simp only [dayCount, monthDays]
  split <;> push_cast <;> omega

def Earlier (a b : Time) : Prop :=
  a.year < b.year ∨ a.year = b.year ∧ (a.month < b.month ∨ a.month = b.month ∧ (a.day < b.day ∨
    a.day = b.day ∧ (a.hour < b.hour ∨ a.hour = b.hour ∧ (a.minute < b.minute ∨
      a.minute = b.minute ∧ a.second < b.second))))

theorem monthsBefore_next {year month : Nat} (lower : 1 ≤ month) (upper : month ≤ 12) :
    ((monthLengths year).take month).sum =
      ((monthLengths year).take (month - 1)).sum + (monthLengths year).getD (month - 1) 0 := by
  interval_cases month <;> cases hLeap : leapYear year <;> simp [monthLengths, hLeap]

theorem monthsBefore_mono {year a b : Nat} (before : a ≤ b) :
    ((monthLengths year).take a).sum ≤ ((monthLengths year).take b).sum := by
  have split := List.take_append_drop a ((monthLengths year).take b)
  rw [List.take_take, Nat.min_eq_left before] at split
  rw [← split, List.sum_append]
  omega

theorem dayCount_lt (date : calendarDate year month day = true) :
    dayCount year month day < daysOfYears (year - 1) + ((monthLengths year).take month).sum ∧
      dayCount year month day < daysOfYears year := by
  obtain ⟨years, lower, upper, days, within⟩ := calendarDate_iff.mp date
  have next := @monthsBefore_next year month lower upper
  have whole := @monthsBefore_mono year month 12 upper
  have all : ((monthLengths year).take 12).sum = yearLength year := rfl
  have ended := daysOfYears_succ (year - 1)
  rw [show year - 1 + 1 = year by omega] at ended
  unfold dayCount
  omega

theorem dayCount_order (left : calendarDate a.year a.month a.day = true)
    (right : calendarDate b.year b.month b.day = true) :
    (a.year < b.year ∨ a.year = b.year ∧ (a.month < b.month ∨ a.month = b.month ∧ a.day < b.day)) →
      dayCount a.year a.month a.day < dayCount b.year b.month b.day := by
  obtain ⟨_, _, _, days, _⟩ := calendarDate_iff.mp left
  obtain ⟨years, _, _, _, _⟩ := calendarDate_iff.mp right
  obtain ⟨inMonth, inYear⟩ := dayCount_lt left
  rintro (earlier | ⟨same, earlier | ⟨same', earlier⟩⟩)
  · have through := @daysOfYears_mono a.year (b.year - 1) (by omega)
    have from_ : daysOfYears (b.year - 1) ≤ dayCount b.year b.month b.day := by
      unfold dayCount
      omega
    omega
  · have through := @monthsBefore_mono b.year a.month (b.month - 1) (by omega)
    rw [same] at inMonth ⊢
    have from_ : daysOfYears (b.year - 1) + ((monthLengths b.year).take (b.month - 1)).sum ≤
        dayCount b.year b.month b.day := by
      unfold dayCount
      omega
    omega
  · unfold dayCount
    rw [same, same']
    omega

theorem gregorianSeconds_lt (left : timeValid a = true) (right : timeValid b = true)
    (earlier : Earlier a b) : gregorianSeconds a < gregorianSeconds b := by
  obtain ⟨-, dateA, hourA, minuteA, secondA⟩ := timeValid_iff.mp left
  obtain ⟨-, dateB, hourB, minuteB, secondB⟩ := timeValid_iff.mp right
  have ordered := dayCount_order dateA dateB
  have days (before : dayCount a.year a.month a.day < dayCount b.year b.month b.day) :
      gregorianSeconds a < gregorianSeconds b := by
    unfold gregorianSeconds
    omega
  rcases earlier with year | ⟨sameYear, month | ⟨sameMonth, day | ⟨sameDay, time⟩⟩⟩
  · exact days (ordered (.inl year))
  · exact days (ordered (.inr ⟨sameYear, .inl month⟩))
  · exact days (ordered (.inr ⟨sameYear, .inr ⟨sameMonth, day⟩⟩))
  · unfold gregorianSeconds
    rw [sameYear, sameMonth, sameDay]
    generalize dayCount b.year b.month b.day = count
    omega

theorem timeOrder_cases (a b : Time) :
    Crl.timeOrder a b = -1 ∧ Earlier a b ∨ Crl.timeOrder a b = 0 ∧ a = b ∨
      Crl.timeOrder a b = 1 ∧ Earlier b a := by
  obtain ⟨year, month, day, hour, minute, second⟩ := a
  obtain ⟨year', month', day', hour', minute', second'⟩ := b
  simp only [Crl.timeOrder, List.zip_cons_cons, List.zip_nil_right, List.find?_cons, List.find?_nil,
    ne_eq, Earlier, Time.mk.injEq]
  by_cases years : year = year'
  · by_cases months : month = month'
    · by_cases days : day = day'
      · by_cases hours : hour = hour'
        · by_cases minutes : minute = minute'
          · by_cases seconds : second = second'
            · simp [years, months, days, hours, minutes, seconds]
            · simp [years, months, days, hours, minutes, seconds]
              omega
          · simp [years, months, days, hours, minutes]
            omega
        · simp [years, months, days, hours]
          omega
      · simp [years, months, days]
        omega
    · simp [years, months]
      omega
  · simp [years]
    omega

/-- The seconds of two valid times are in the order of `TC_X509_time_compare`. -/
theorem timeCompare_seconds (left : timeValid a = true) (right : timeValid b = true) :
    ∃ order, Crl.timeCompare a b = .ok order ∧
      (order = -1 ∧ gregorianSeconds a < gregorianSeconds b ∨
        order = 0 ∧ gregorianSeconds a = gregorianSeconds b ∨
          order = 1 ∧ gregorianSeconds b < gregorianSeconds a) := by
  refine ⟨Crl.timeOrder a b, by rw [Crl.timeCompare, left, right]; rfl, ?_⟩
  rcases timeOrder_cases a b with ⟨order, earlier⟩ | ⟨order, rfl⟩ | ⟨order, earlier⟩
  · exact .inl ⟨order, gregorianSeconds_lt left right earlier⟩
  · exact .inr (.inl ⟨order, rfl⟩)
  · exact .inr (.inr ⟨order, gregorianSeconds_lt right left earlier⟩)

/-- The result of an operation of `int64_t`, from INT64_MIN to INT64_MAX, unless it
    overflows. -/
def int64 (value : Int) : Option Int :=
  if -9223372036854775808 ≤ value ∧ value ≤ 9223372036854775807 then some value else none

/-- `TC_X509_time_to_unix`, operation by operation. -/
def timeToUnixSteps (t : Time) : Option (Except Result Int) := do
  if ¬ timeValid t then return .error .invalid
  let previousYear := t.year - 1
  let days ← int64 (previousYear * 365)
  let days ← int64 (days + previousYear / 4)
  let days ← int64 (days - previousYear / 100)
  let days ← int64 (days + previousYear / 400)
  let days ← int64 (days + beforeMonth.getD (t.month - 1) 0)
  let days ← int64 (days + t.day)
  let days ← int64 (days - 1)
  let days ← int64 (if t.month > 2 && calendarDate t.year 2 29 then days + 1 else days)
  let days ← int64 (days - daysToUnixEpoch)
  let days ← int64 (days * 86400)
  let hours ← int64 (t.hour * 3600)
  let seconds ← int64 (days + hours)
  let seconds ← int64 (seconds + t.minute * 60)
  let seconds ← int64 (seconds + t.second)
  return .ok seconds

/-- `tc_x509_time_window`, operation by operation. -/
def timeWindowSteps (at_ : Time) (skewSeconds : Nat) (notBefore notAfter : Time) :
    Option (Except Result Bool) := do
  let .ok now ← timeToUnixSteps at_ | return .error .invalid
  let .ok start ← timeToUnixSteps notBefore | return .error .invalid
  let .ok finish ← timeToUnixSteps notAfter | return .error .invalid
  if start > finish then return .error .invalid
  let opened ← int64 (start - skewSeconds)
  if opened > now then return .ok false
  let closed ← int64 (finish + skewSeconds)
  return .ok (now ≤ closed)

/-- The decision of `tc_x509_freshness_at` on the converted times, operation by operation. -/
def freshnessSteps (time : Crl.RevocationTime) (now updated : Int) (next : Option Int) :
    Option (Except Result Crl.Freshness) := do
  if next.any (· < updated) then return .error .invalid
  let early ← int64 (now - time.clockSkewSeconds)
  let late ← int64 (now + time.clockSkewSeconds)
  if updated > late then return .ok .future
  let age ← int64 (early - updated)
  if time.maxAgeSeconds ≠ 0 ∧ age > time.maxAgeSeconds then return .ok .stale
  match next with
  | none => return .ok .noNextUpdate
  | some next => return .ok (if next > early then .current else .stale)

/-- `tc_x509_freshness_at`, operation by operation. -/
def freshnessAtSteps (time : Crl.RevocationTime) (thisUpdate : Time) (nextUpdate : Option Time) :
    Option (Except Result Crl.Freshness) := do
  let .ok now ← timeToUnixSteps time.at_ | return .error .invalid
  let .ok updated ← timeToUnixSteps thisUpdate | return .error .invalid
  match nextUpdate with
  | none => freshnessSteps time now updated none
  | some next =>
    let .ok next ← timeToUnixSteps next | return .error .invalid
    freshnessSteps time now updated (some next)

theorem int64_within {value : Int} (low : -9223372036854775808 ≤ value)
    (high : value ≤ 9223372036854775807) : int64 value = some value := if_pos ⟨low, high⟩

theorem int64_step {A : Type} {value : Int} {f : Int → Option A} {outcome : Option A}
    (low : -9223372036854775808 ≤ value) (high : value ≤ 9223372036854775807)
    (after : f value = outcome) : int64 value >>= f = outcome := by
  rw [int64_within low high]
  exact after

theorem timeToUnix_ok (given : timeToUnix t = .ok seconds) :
    timeValid t = true ∧ seconds = gregorianSeconds t := by
  by_cases valid : timeValid t = true
  · rw [timeToUnix_eq valid] at given
    exact ⟨valid, (Except.ok.inj given).symm⟩
  · rw [timeToUnix, if_pos valid] at given
    cases given

theorem timeToUnix_bounds (given : timeToUnix t = .ok seconds) :
    -2 ^ 39 < seconds ∧ seconds < 2 ^ 39 := by
  obtain ⟨valid, same⟩ := timeToUnix_ok given
  obtain ⟨years, date, hours, minutes, seconds⟩ := timeValid_iff.mp valid
  have inYear := (dayCount_lt date).2
  have last := @daysOfYears_mono t.year 9999 years
  have total := daysOfYears_eq 9999
  rw [gregorianSeconds, daysOfYears_epoch, daysToUnixEpoch] at same
  generalize daysOfYears 9999 = whole at *
  omega

theorem timeToUnixSteps_eq (t : Time) : timeToUnixSteps t = some (timeToUnix t) := by
  by_cases valid : timeValid t = true
  · obtain ⟨years, date, hours, minutes, seconds⟩ := timeValid_iff.mp valid
    obtain ⟨-, lower, upper, -, days⟩ := calendarDate_iff.mp date
    have before : beforeMonth.getD (t.month - 1) 0 ≤ 334 := by
      interval_cases t.month <;> decide
    have short : t.day ≤ 31 := by
      revert days
      generalize t.day = day
      interval_cases t.month <;> cases hLeap : leapYear t.year <;> simp [monthLengths, hLeap] <;> omega
    rw [timeToUnixSteps, timeToUnix, if_neg (not_not.mpr valid), if_neg (not_not.mpr valid)]
    dsimp only [daysToUnixEpoch]
    generalize beforeMonth.getD (t.month - 1) 0 = past at *
    clear valid date
    clear lower upper days
    split
    · iterate 14 refine int64_step (by omega) (by omega) ?_
      rfl
    · iterate 14 refine int64_step (by omega) (by omega) ?_
      rfl
  · simp [timeToUnixSteps, timeToUnix, valid]

theorem timeWindowSteps_eq {skewSeconds : Nat} (word : skewSeconds < 2 ^ 32)
    (at_ notBefore notAfter : Time) : timeWindowSteps at_ skewSeconds notBefore notAfter =
      some (timeWindow at_ skewSeconds notBefore notAfter) := by
  simp only [timeWindowSteps, timeWindow, timeToUnixSteps_eq, Option.bind_eq_bind, Option.bind_some]
  cases hNow : timeToUnix at_ with
  | error e => rfl
  | ok now =>
    cases hStart : timeToUnix notBefore with
    | error e => rfl
    | ok start =>
      cases hFinish : timeToUnix notAfter with
      | error e => rfl
      | ok finish =>
        have low := timeToUnix_bounds hStart
        have high := timeToUnix_bounds hFinish
        dsimp only
        split
        · rfl
        · simp (disch := omega) only [int64_within, Option.bind_some]
          split
          · rename_i early
            simp [Int.not_le.mpr early]
          · rename_i opened
            simp [Int.not_lt.mp opened]

def freshnessOf (time : Crl.RevocationTime) (now updated : Int) (next : Option Int) :
    Except Result Crl.Freshness :=
  if next.any (· < updated) then .error .invalid
  else if updated > now + time.clockSkewSeconds then .ok .future
  else if time.maxAgeSeconds ≠ 0 ∧ now - time.clockSkewSeconds - updated > time.maxAgeSeconds then
    .ok .stale
  else
    match next with
    | none => .ok .noNextUpdate
    | some next => .ok (if next > now - time.clockSkewSeconds then .current else .stale)

theorem freshnessSteps_eq {time : Crl.RevocationTime} (skew : time.clockSkewSeconds < 2 ^ 32)
    {now updated : Int} (nowBounds : -2 ^ 39 < now ∧ now < 2 ^ 39)
    (updatedBounds : -2 ^ 39 < updated ∧ updated < 2 ^ 39) (next : Option Int) :
    freshnessSteps time now updated next = some (freshnessOf time now updated next) := by
  unfold freshnessSteps freshnessOf
  split
  · rfl
  · refine int64_step (by omega) (by omega) (int64_step (by omega) (by omega) ?_)
    split
    · rfl
    · refine int64_step (by omega) (by omega) ?_
      split
      · rfl
      · cases next <;> rfl

theorem freshnessAt_of {time : Crl.RevocationTime} {thisUpdate : Time} {nextUpdate : Option Time}
    {now updated : Int} {next : Option Int} (isNow : timeToUnix time.at_ = .ok now)
    (isUpdated : timeToUnix thisUpdate = .ok updated)
    (isNext : nextUpdate.map timeToUnix = next.map Except.ok) :
    Crl.freshnessAt time thisUpdate nextUpdate = freshnessOf time now updated next := by
  unfold Crl.freshnessAt
  rw [isNow, isUpdated]
  cases nextUpdate with
  | none =>
    cases next with
    | none => rfl
    | some last => cases isNext
  | some time =>
    cases next with
    | none => cases isNext
    | some last =>
      have isLast : timeToUnix time = .ok last := Option.some.inj isNext
      dsimp only
      rw [isLast]
      rfl

theorem freshnessAt_cases (time : Crl.RevocationTime) (thisUpdate : Time) (nextUpdate : Option Time) :
    (∃ now updated next, timeToUnix time.at_ = .ok now ∧ timeToUnix thisUpdate = .ok updated ∧
      nextUpdate.map timeToUnix = next.map Except.ok ∧
      Crl.freshnessAt time thisUpdate nextUpdate = freshnessOf time now updated next) ∨
    Crl.freshnessAt time thisUpdate nextUpdate = .error .invalid := by
  by_cases converted : ∃ (now updated : Int) (next : Option Int), timeToUnix time.at_ = .ok now ∧
      timeToUnix thisUpdate = .ok updated ∧ nextUpdate.map timeToUnix = next.map Except.ok
  · obtain ⟨now, updated, next, isNow, isUpdated, isNext⟩ := converted
    exact .inl ⟨now, updated, next, isNow, isUpdated, isNext, freshnessAt_of isNow isUpdated isNext⟩
  · right
    unfold Crl.freshnessAt
    cases hNow : timeToUnix time.at_ with
    | error e => rfl
    | ok now =>
      cases hUpdated : timeToUnix thisUpdate with
      | error e => rfl
      | ok updated =>
        cases nextUpdate with
        | none => exact absurd ⟨now, updated, none, hNow, hUpdated, rfl⟩ converted
        | some last =>
          dsimp only
          cases hLast : timeToUnix last with
          | error e => rfl
          | ok seconds =>
            exact absurd ⟨now, updated, some seconds, hNow, hUpdated, congrArg some hLast⟩ converted

theorem freshnessAtSteps_eq (skew : time.clockSkewSeconds < 2 ^ 32) (thisUpdate : Time)
    (nextUpdate : Option Time) : freshnessAtSteps time thisUpdate nextUpdate =
      some (Crl.freshnessAt time thisUpdate nextUpdate) := by
  unfold freshnessAtSteps Crl.freshnessAt
  rw [timeToUnixSteps_eq, timeToUnixSteps_eq]
  cases hNow : timeToUnix time.at_ with
  | error e => rfl
  | ok now =>
    cases hUpdated : timeToUnix thisUpdate with
    | error e => rfl
    | ok updated =>
      have decided := @freshnessSteps_eq time skew now updated (timeToUnix_bounds hNow)
        (timeToUnix_bounds hUpdated)
      cases nextUpdate with
      | none => exact decided none
      | some next =>
        dsimp only [bind, Option.bind]
        rw [timeToUnixSteps_eq]
        cases hNext : timeToUnix next with
        | error e => rfl
        | ok seconds => exact decided (some seconds)

def stage : Crl.Freshness → Nat
  | .future => 0
  | .current | .noNextUpdate => 1
  | .stale => 2

theorem timeWindow_widens {notBefore notAfter : Time} (more : skew ≤ wider)
    (given : timeWindow at_ skew notBefore notAfter = .ok true) :
    timeWindow at_ wider notBefore notAfter = .ok true := by
  obtain ⟨now, start, finish, hNow, hStart, hFinish, ordered, inside⟩ := timeWindow_iff.mp given
  refine timeWindow_iff.mpr ⟨now, start, finish, hNow, hStart, hFinish, ordered, ?_⟩
  simp only [Bool.and_eq_true, decide_eq_true_eq] at inside ⊢
  omega

variable {next : Option Int}

theorem freshnessOf_widens (more : skew ≤ wider)
    (given : freshnessOf ⟨at_, skew, age⟩ now updated next = .ok .current) :
    freshnessOf ⟨at_, wider, age⟩ now updated next = .ok .current := by
  unfold freshnessOf at *
  split at given
  · cases given
  · rename_i ordered
    rw [if_neg ordered]
    split at given
    · cases given
    · rename_i begun
      split at given
      · cases given
      · rename_i young
        dsimp only at begun young given ⊢
        rw [if_neg (by omega), if_neg (by omega)]
        cases next with
        | none => cases given
        | some next =>
          simp only [Except.ok.injEq, ite_eq_left_iff, reduceCtorEq, imp_false, not_not] at given ⊢
          omega

theorem freshnessOf_stage {freshness : Crl.Freshness}
    (given : freshnessOf time now updated next = .ok freshness) :
    (stage freshness = 0 ↔ updated > now + time.clockSkewSeconds) ∧
      (stage freshness = 2 ↔ ¬updated > now + time.clockSkewSeconds ∧
        (time.maxAgeSeconds ≠ 0 ∧ now - time.clockSkewSeconds - updated > time.maxAgeSeconds ∨
          ∃ last, next = some last ∧ last ≤ now - time.clockSkewSeconds)) ∧
      (freshness = .current → next.isSome) ∧ (freshness = .noNextUpdate → next = none) := by
  unfold freshnessOf at given
  split at given
  · cases given
  · split at given
    · rename_i early
      cases given
      simp [stage, early]
    · rename_i begun
      split at given
      · rename_i aged
        cases given
        simp only [stage, begun]
        simp [aged]
      · rename_i young
        cases next with
        | none =>
          cases given
          simp only [stage, begun, young]
          simp
        | some last =>
          dsimp only at given
          split at given
          · rename_i open_
            cases given
            simp only [stage, begun, young]
            simp only [Option.some.injEq, exists_eq_left', false_or, Option.isSome_some]
            simp
            omega
          · rename_i closed
            cases given
            simp only [stage, begun, young]
            simp only [Option.some.injEq, exists_eq_left', false_or, Option.isSome_some]
            simp
            omega

theorem freshnessOf_advances {at' : Time} {later : Int} {first second : Crl.Freshness}
    (advanced : now ≤ later) (given : freshnessOf ⟨at_, skew, age⟩ now updated next = .ok first)
    (given' : freshnessOf ⟨at', skew, age⟩ later updated next = .ok second) :
    stage first ≤ stage second ∧ (stage first = stage second → first = second) := by
  obtain ⟨future, stale, current, none_⟩ := freshnessOf_stage given
  obtain ⟨future', stale', current', none'⟩ := freshnessOf_stage given'
  dsimp only at future stale future' stale'
  constructor
  · have unopened : stage second = 0 → stage first = 0 := by
      rw [future, future']
      omega
    have closed : stage first = 2 → stage second = 2 := by
      rw [stale, stale']
      rintro ⟨begun, ⟨limited, aged⟩ | ⟨last, isLast, passed⟩⟩
      · exact ⟨by omega, .inl ⟨limited, by omega⟩⟩
      · exact ⟨by omega, .inr ⟨last, isLast, by omega⟩⟩
    cases first <;> cases second <;> simp_all [stage]
  · cases first <;> cases second <;> simp_all [stage]

/-- Times are ordered as their seconds are, every bound is checked in 64 bits, and no larger
    tolerance and no later clock makes anything fresher. -/
theorem calendar_and_freshness :
    (∀ t, timeValid t = true → timeToUnix t = .ok (gregorianSeconds t)) ∧
    (∀ a b, timeValid a = true → timeValid b = true →
      ∃ order secondsA secondsB, Crl.timeCompare a b = .ok order ∧ timeToUnix a = .ok secondsA ∧
        timeToUnix b = .ok secondsB ∧
        (order = -1 ∧ secondsA < secondsB ∨ order = 0 ∧ secondsA = secondsB ∨
          order = 1 ∧ secondsB < secondsA)) ∧ (∀ at_ skew notBefore notAfter, skew < 2 ^ 32 →
      timeWindowSteps at_ skew notBefore notAfter = some (timeWindow at_ skew notBefore notAfter)) ∧
    (∀ at_ skew age thisUpdate nextUpdate, skew < 2 ^ 32 → age < 2 ^ 32 →
      freshnessAtSteps ⟨at_, skew, age⟩ thisUpdate nextUpdate =
        some (Crl.freshnessAt ⟨at_, skew, age⟩ thisUpdate nextUpdate)) ∧
    (∀ at_ skew wider notBefore notAfter, skew ≤ wider →
      timeWindow at_ skew notBefore notAfter = .ok true →
      timeWindow at_ wider notBefore notAfter = .ok true) ∧
    (∀ at_ skew wider age thisUpdate nextUpdate, skew ≤ wider →
      Crl.freshnessAt ⟨at_, skew, age⟩ thisUpdate nextUpdate = .ok .current →
      Crl.freshnessAt ⟨at_, wider, age⟩ thisUpdate nextUpdate = .ok .current) ∧
    (∀ at_ at' order skew age thisUpdate nextUpdate first second,
      Crl.timeCompare at_ at' = .ok order → order ≤ 0 →
      Crl.freshnessAt ⟨at_, skew, age⟩ thisUpdate nextUpdate = .ok first →
      Crl.freshnessAt ⟨at', skew, age⟩ thisUpdate nextUpdate = .ok second →
      stage first ≤ stage second ∧ (stage first = stage second → first = second)) := by
  refine ⟨fun t => timeToUnix_eq, fun a b left right => ?_,
    fun at_ skew notBefore notAfter word => timeWindowSteps_eq word at_ notBefore notAfter,
    fun at_ skew age thisUpdate nextUpdate word _ => freshnessAtSteps_eq word thisUpdate nextUpdate,
    fun at_ skew wider notBefore notAfter more => timeWindow_widens more, ?_, ?_⟩
  · obtain ⟨order, compared, ordered⟩ := timeCompare_seconds left right
    exact ⟨order, _, _, compared, timeToUnix_eq left, timeToUnix_eq right, ordered⟩
  · intro at_ skew wider age thisUpdate nextUpdate more given
    rcases freshnessAt_cases ⟨at_, skew, age⟩ thisUpdate nextUpdate with
      ⟨now, updated, next, isNow, isUpdated, isNext, same⟩ | refused
    · rw [same] at given
      rw [@freshnessAt_of ⟨at_, wider, age⟩ _ _ _ _ _ isNow isUpdated isNext]
      exact freshnessOf_widens more given
    · rw [refused] at given
      cases given
  · intro at_ at' order skew age thisUpdate nextUpdate first second compared ordered given given'
    rcases freshnessAt_cases ⟨at_, skew, age⟩ thisUpdate nextUpdate with
      ⟨now, updated, next, isNow, isUpdated, isNext, same⟩ | refused
    · rcases freshnessAt_cases ⟨at', skew, age⟩ thisUpdate nextUpdate with
        ⟨later, updated', next', isLater, isUpdated', isNext', same'⟩ | refused
      · rw [same] at given
        rw [freshnessAt_of isLater isUpdated isNext] at given'
        obtain ⟨left, isFirst⟩ := timeToUnix_ok isNow
        obtain ⟨right, isSecond⟩ := timeToUnix_ok isLater
        obtain ⟨order', compared', cases_⟩ := timeCompare_seconds left right
        rw [compared] at compared'
        cases compared'
        exact freshnessOf_advances (by omega) given given'
      · rw [refused] at given'
        cases given'
    · rw [refused] at given
      cases given

end TinyCrypto.X509
