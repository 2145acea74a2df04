import TinyCrypto.X509.SearchSteps

/-! # The search is sound and misses no path

Every frame of the stack has looked at the anchors and candidates before its
counters. While the remembered failure is INVALID, none of them was accepted,
cut or left undecided, and neither was anything above them. When the last frame
goes, this holds of the whole search tree.
-/

namespace TinyCrypto.X509

open Library Library.Program Library.Metered

variable {V : Type} {q : SearchPrimitives V} {input : SearchInput} {exact : Prop}

variable {certificate : Certificate} {path : List Bytes}

theorem Explored.bytes_le (explored : Explored q input path certificate) :
    pathBytes path ≤ input.maxInput := by
  cases explored with
  | target read bytes => simpa [pathBytes] using bytes
  | extend below listed fresh read named room bytes => exact bytes

theorem Explored.read_head (explored : Explored q input path certificate) :
    ∃ top rest, path = top :: rest ∧ q.read top = .ok certificate := by
  cases explored with
  | target read bytes => exact ⟨_, _, rfl, read⟩
  | extend below listed fresh read named room bytes => exact ⟨_, _, rfl, read⟩

theorem Explored.unique {certificate certificate' : Certificate}
    (explored : Explored q input path certificate) (explored' : Explored q input path certificate') :
    certificate = certificate' := by
  obtain ⟨top, rest, rfl, read⟩ := explored.read_head
  obtain ⟨top', rest', same, read'⟩ := explored'.read_head
  cases same
  exact Except.ok.inj (read.symm.trans read')

theorem Explored.target_read (explored : Explored q input path certificate) :
    (∃ last, Explored q input [input.target] last) ∧ [input.target] <:+ path := by
  induction explored with
  | target read bytes => exact ⟨⟨_, .target read bytes⟩, List.suffix_rfl⟩
  | extend below listed fresh read named room bytes ih =>
    exact ⟨ih.1, ih.2.trans (List.suffix_cons _ _)⟩

theorem Explored.lower {candidate : Bytes}
    (explored : Explored q input (candidate :: path) certificate) (nonempty : path ≠ []) :
    ∃ lower, Explored q input path lower ∧ Extends q path lower.issuer candidate certificate := by
  cases explored with
  | target read bytes => exact absurd rfl nonempty
  | extend below listed fresh read named room bytes => exact ⟨_, below, fresh, read, named⟩

theorem Explored.suffix {upper path : List Bytes}
    (explored : Explored q input (upper ++ path) certificate) (nonempty : path ≠ []) :
    ∃ lower, Explored q input path lower := by
  induction upper generalizing certificate with
  | nil => exact ⟨certificate, explored⟩
  | cons candidate upper ih =>
    rw [List.cons_append] at explored
    obtain ⟨lower, explored, -⟩ := explored.lower (by simp [nonempty])
    exact ih explored

theorem Explored.isPath (explored : Explored q input path certificate)
    (count : path.length ≤ input.capacity) : IsPath q input path := by
  induction explored with
  | target read bytes =>
    exact ⟨⟨[], rfl, by simp⟩, by simp, by simp, count, by simpa [pathBytes] using bytes⟩
  | @extend path lower below candidate issuer listed fresh read named room bytes ih =>
    obtain ⟨⟨upper, rfl, members⟩, distinct, chained, -, -⟩ := ih (by omega)
    obtain ⟨top, rest, hPath, hTop⟩ := below.read_head
    refine ⟨⟨candidate :: upper, rfl, ?_⟩, ?_, ?_, count, bytes⟩
    · intro c member
      rcases List.mem_cons.mp member with rfl | member
      · exact listed
      · exact members c member
    · exact List.nodup_cons.mpr ⟨fresh, distinct⟩
    · rw [hPath] at chained ⊢
      exact List.isChain_cons_cons.mpr ⟨⟨issuer, lower, read, hTop, named⟩, chained⟩

variable {top : Bytes}

/-- Every path in the bounds of the search whose first certificate is readable
    is in the tree. -/
theorem IsPath.explored (isPath : IsPath q input path) (head : path.head? = some top)
    (read : q.read top = .ok certificate) : Explored q input path certificate := by
  obtain ⟨⟨upper, rfl, members⟩, distinct, chained, count, bytes⟩ := isPath
  induction upper generalizing top certificate with
  | nil =>
    obtain rfl : input.target = top := by simpa using head
    exact .target read (by simpa [pathBytes] using bytes)
  | cons candidate upper ih =>
    obtain rfl : candidate = top := by simpa using head
    obtain ⟨next, rest, hRest⟩ : ∃ next rest, upper ++ [input.target] = next :: rest := by
      cases upper with
      | nil => exact ⟨_, _, rfl⟩
      | cons next upper => exact ⟨_, _, rfl⟩
    simp only [List.cons_append, hRest] at distinct chained count bytes ⊢
    obtain ⟨⟨issuer, lower, hIssuer, hLower, named⟩, chained⟩ := List.isChain_cons_cons.mp chained
    obtain rfl : issuer = certificate := Except.ok.inj (hIssuer.symm.trans read)
    have below : Explored q input (upper ++ [input.target]) lower := by
      refine ih hLower (fun c member => members c (List.mem_cons_of_mem _ member))
        (by simp [hRest]) ?_ ?_ ?_ ?_
      · rw [hRest]
        exact (List.nodup_cons.mp distinct).2
      · rw [hRest]
        exact chained
      · rw [hRest]
        simp only [List.length_cons] at count ⊢
        omega
      · rw [hRest]
        simp only [pathBytes_cons] at bytes ⊢
        omega
    rw [hRest] at below
    refine .extend below (members candidate (List.mem_cons_self ..))
      (List.nodup_cons.mp distinct).1 read named ?_ bytes
    simp only [List.length_cons] at count ⊢
    omega

def Settled (exact : Prop) (q : SearchPrimitives V) (input : SearchInput) (path : List Bytes)
    (certificate : Certificate) : Prop :=
  (∀ anchor ∈ input.source.anchors, Rejects exact q path certificate.issuer anchor) ∧
    ∀ candidate ∈ input.source.candidates,
      exact ∨ ¬ Undecided (candidateOutcome q input path certificate.issuer candidate)

def Barren (exact : Prop) (q : SearchPrimitives V) (input : SearchInput) (path : List Bytes) :
    Prop :=
  ∀ above certificate, Explored q input above certificate → path <:+ above →
    Settled exact q input above certificate

def CandidateDone (exact : Prop) (q : SearchPrimitives V) (input : SearchInput)
    (path : List Bytes) (certificate : Certificate) (candidate : Bytes) : Prop :=
  (exact ∨ ¬ Undecided (candidateOutcome q input path certificate.issuer candidate)) ∧
    ∀ issuer, Explored q input (candidate :: path) issuer → Barren exact q input (candidate :: path)

theorem barren_of_done (explored : Explored q input path certificate)
    (anchors : ∀ anchor ∈ input.source.anchors, Rejects exact q path certificate.issuer anchor)
    (candidates : ∀ candidate ∈ input.source.candidates,
      CandidateDone exact q input path certificate candidate) : Barren exact q input path := by
  obtain ⟨top, rest, hPath, -⟩ := explored.read_head
  have nonempty : path ≠ [] := by simp [hPath]
  rintro above certificate' explored' ⟨upper, rfl⟩
  rcases List.eq_nil_or_concat upper with rfl | ⟨upper, candidate, rfl⟩
  · rw [List.nil_append] at explored'
    obtain rfl := explored.unique explored'
    exact ⟨anchors, fun candidate listed => (candidates candidate listed).1⟩
  · simp only [List.concat_eq_append, List.append_assoc, List.singleton_append] at explored' ⊢
    obtain ⟨issuer, child⟩ := explored'.suffix (by simp)
    have listed : candidate ∈ input.source.candidates := by
      cases child with
      | target read bytes => exact absurd rfl nonempty
      | extend below listed fresh read named room bytes => exact listed
    exact (candidates candidate listed).2 issuer child _ _ explored' ⟨upper, rfl⟩

theorem Passes.done {candidate : Bytes} (passes : Passes q input path certificate.issuer candidate)
    (clear : exact ∨ ¬ Undecided (candidateOutcome q input path certificate.issuer candidate))
    (explored : Explored q input path certificate) :
    CandidateDone exact q input path certificate candidate := by
  refine ⟨clear, ?_⟩
  intro issuer child
  obtain ⟨top, rest, rfl, -⟩ := explored.read_head
  obtain ⟨lower, below, ext⟩ := child.lower (by simp)
  obtain rfl := explored.unique below
  cases child with
  | extend below listed fresh read named room bytes =>
    have := passes issuer ext
    omega

structure FrameAt (q : SearchPrimitives V) (input : SearchInput) (path : List Bytes)
    (frame : SearchFrame) (certificate : Certificate) : Prop where
  explored : Explored q input path certificate
  issuer : frame.issuer = certificate.issuer
  bytes : frame.bytes = pathBytes path
  count : path.length ≤ input.capacity

structure Progress (exact : Prop) (q : SearchPrimitives V) (input : SearchInput)
    (path : List Bytes) (certificate : Certificate) (anchors candidates : Nat) : Prop where
  anchors : ∀ i < anchors, ∀ anchor, input.source.anchors[i]? = some anchor →
    Rejects exact q path certificate.issuer anchor
  candidates : ∀ i < candidates, ∀ candidate, input.source.candidates[i]? = some candidate →
    CandidateDone exact q input path certificate candidate

/-- The frames below the one of path `top :: path`. Each has just taken the
    candidate above it; `known` says that the state is known. -/
inductive Lower (exact : Prop) (q : SearchPrimitives V) (input : SearchInput) (known : Prop) :
    (top : Bytes) → (path : List Bytes) → List SearchFrame → Prop
  | bottom : Lower exact q input known input.target [] []
  | frame {top candidate : Bytes} {path : List Bytes} {frames : List SearchFrame}
      {frame : SearchFrame} {certificate : Certificate} {index : Nat}
      (below : Lower exact q input known top path frames)
      (here : FrameAt q input (top :: path) frame certificate)
      (taken : frame.candidate = index + 1)
      (found : input.source.candidates[index]? = some candidate)
      (progress : known → Progress exact q input (top :: path) certificate frame.anchor index) :
      Lower exact q input known candidate (top :: path) (frame :: frames)

variable {frames : List SearchFrame}

theorem Lower.imp {known known' : Prop} (lower : Lower exact q input known top path frames)
    (imp : known' → known) : Lower exact q input known' top path frames := by
  induction lower with
  | bottom => exact .bottom
  | frame below here taken found progress ih =>
    exact .frame ih here taken found fun holds => progress (imp holds)

/-- The failure of a running search. With `exact` an undecided one has its branch. -/
structure Failing (exact : Prop) (q : SearchPrimitives V) (input : SearchInput)
    (failure : PathStatus) : Prop where
  failing : failure = .invalid ∨ Undecided failure
  blamed : exact → Undecided failure → SomeUndecided q input

inductive SearchInv (exact : Prop) (q : SearchPrimitives V) (input : SearchInput)
    (s : SearchState) : Prop
  | running {top : Bytes} {path : List Bytes} {frame : SearchFrame} {frames : List SearchFrame}
      {certificate : Certificate} (hPath : s.path = top :: path)
      (hFrames : s.frames = frame :: frames)
      (lower : Lower exact q input (Known exact s) top path frames)
      (here : FrameAt q input (top :: path) frame certificate)
      (progress : Known exact s →
        Progress exact q input (top :: path) certificate frame.anchor frame.candidate)
      (failing : Failing exact q input s.failure)
  | done (hFrames : s.frames = [])
      (barren : Known exact s → Barren exact q input [input.target])
      (failing : Failing exact q input s.failure)

theorem Noted.failing_after {outcome : PathStatus} {s s' : SearchState} {P : Prop}
    (noted : Noted exact outcome s s' P) (failing : Failing exact q input s.failure)
    (branch : Undecided outcome → SomeUndecided q input) : Failing exact q input s'.failure := by
  refine ⟨noted.failing failing.failing, fun holds undecided => ?_⟩
  exact (noted.blamed holds undecided).elim (failing.blamed holds) branch

variable {anchors candidates : Nat}

section

variable (progress : Progress exact q input path certificate anchors candidates)

include progress

theorem Progress.anchor {anchor : StoreAnchor}
    (found : input.source.anchors[anchors]? = some anchor)
    (rejects : Rejects exact q path certificate.issuer anchor) :
    Progress exact q input path certificate (anchors + 1) candidates := by
  refine ⟨?_, progress.candidates⟩
  intro i inside other found'
  rcases Nat.lt_succ_iff_lt_or_eq.mp inside with before | rfl
  · exact progress.anchors i before other found'
  · obtain rfl : anchor = other := Option.some.inj (found.symm.trans found')
    exact rejects

theorem Progress.candidate {candidate : Bytes}
    (found : input.source.candidates[candidates]? = some candidate)
    (done : CandidateDone exact q input path certificate candidate) :
    Progress exact q input path certificate anchors (candidates + 1) := by
  refine ⟨progress.anchors, ?_⟩
  intro i inside other found'
  rcases Nat.lt_succ_iff_lt_or_eq.mp inside with before | rfl
  · exact progress.candidates i before other found'
  · obtain rfl : candidate = other := Option.some.inj (found.symm.trans found')
    exact done

theorem Progress.barren (explored : Explored q input path certificate)
    (anchorsEnd : input.source.anchors[anchors]? = none)
    (candidatesEnd : input.source.candidates[candidates]? = none) : Barren exact q input path := by
  rw [List.getElem?_eq_none_iff] at anchorsEnd candidatesEnd
  refine barren_of_done explored ?_ ?_
  · intro anchor listed
    obtain ⟨i, found⟩ := List.mem_iff_getElem?.mp listed
    obtain ⟨inside, -⟩ := List.getElem?_eq_some_iff.mp found
    exact progress.anchors i (by omega) anchor found
  · intro candidate listed
    obtain ⟨i, found⟩ := List.mem_iff_getElem?.mp listed
    obtain ⟨inside, -⟩ := List.getElem?_eq_some_iff.mp found
    exact progress.candidates i (by omega) candidate found

end

theorem SearchInv.pop {s : SearchState}
    (lower : Lower exact q input (Known exact s) top path frames)
    (explored : Explored q input (top :: path) certificate)
    (barren : Known exact s → Barren exact q input (top :: path))
    (failing : Failing exact q input s.failure) :
    SearchInv exact q input { s with path := path, frames := frames } := by
  cases lower with
  | bottom => exact .done rfl barren failing
  | @frame lowerTop _ path frames frame lowerCertificate index below here taken found progress =>
    refine .running rfl rfl below here ?_ failing
    intro decided
    rw [taken]
    refine (progress decided).candidate found ⟨.inr ?_, fun _ _ => barren decided⟩
    obtain ⟨lower, explored', ext⟩ := explored.lower (by simp)
    obtain rfl := here.explored.unique explored'
    cases explored with
    | extend below listed fresh read named room bytes =>
      unfold candidateOutcome
      have bounded : ¬ (input.maxInput <
          pathBytes (top :: lowerTop :: path)) := Nat.not_lt.mpr bytes
      have inside : ¬ ((lowerTop :: path).length = input.capacity) := by omega
      rw [if_neg fresh, ext.candidateNamed]
      simp only [read, inside, decide_false, Bool.false_or, decide_eq_true_eq, gt_iff_lt]
      rw [if_neg bounded]
      simp [Undecided]

theorem SearchInv.start (target : Explored q input [input.target] certificate)
    (room : 0 < input.capacity) : SearchInv exact q input
      ⟨[input.target], [⟨0, 0, input.target.length, certificate.issuer⟩], .invalid⟩ :=
  .running rfl rfl .bottom ⟨target, rfl, by simp [pathBytes], by simpa using Nat.succ_le_of_lt room⟩
    (fun _ => ⟨by simp, by simp⟩) ⟨.inl rfl, by simp [Undecided]⟩

variable {frame : SearchFrame}

theorem SearchInv.front {s : SearchState} (inv : SearchInv exact q input s)
    (hFrames : s.frames = frame :: frames) : ∃ top path certificate, s.path = top :: path ∧
      FrameAt q input (top :: path) frame certificate ∧
      Lower exact q input (Known exact s) top path frames ∧
      (Known exact s →
        Progress exact q input (top :: path) certificate frame.anchor frame.candidate) ∧
      Failing exact q input s.failure := by
  cases inv with
  | done empty => simp [empty] at hFrames
  | running hPath hFrames' lower here progress failing =>
    rw [hFrames, List.cons.injEq] at hFrames'
    obtain ⟨rfl, rfl⟩ := hFrames'
    exact ⟨_, _, _, hPath, here, lower, progress, failing⟩

theorem frameStep_inv {initialWork : Nat} {s s' : Budgeted SearchState}
    (inv : SearchInv exact q input s.data) (hFrames : s.data.frames = frame :: frames)
    (given : Gives (frameStep q input initialWork frame) s none s') (paid : exact → 0 < s'.work) :
    SearchInv exact q input s'.data := by
  obtain ⟨top, path, certificate, hPath, here, lower, progress, failing⟩ := inv.front hFrames
  cases frameStep_gives (by rw [hPath, here.bytes]) given paid with
  | @anchor anchor found noted =>
    simp only [SearchState.onTop, hFrames, List.modifyHead_cons, hPath, here.issuer] at noted
    refine .running noted.path noted.frames (lower.imp fun known => (noted.known known).1)
      ⟨here.explored, rfl, here.bytes, here.count⟩ ?_
      (noted.failing_after failing (.anchor here.explored anchor (List.mem_of_getElem? found)))
    intro known
    obtain ⟨before, rejects⟩ := noted.rejects known
    exact (progress before).anchor found rejects
  | @candidate candidate found tried =>
    simp only [SearchState.onTop, hFrames, List.modifyHead_cons] at tried
    cases tried with
    | ended noted =>
      simp only [hPath, here.issuer] at noted
      refine .running noted.path noted.frames (lower.imp fun known => (noted.known known).1)
        ⟨here.explored, rfl, here.bytes, here.count⟩ ?_
        (noted.failing_after failing
          (.candidate here.explored candidate (List.mem_of_getElem? found)))
      intro known
      obtain ⟨before, clear, passes⟩ := noted.known known
      exact (progress before).candidate found (passes.done clear here.explored)
    | pushed issuer ext room bytes next =>
      simp only [hPath] at ext room bytes next
      have bounded := here.explored.bytes_le
      have count := here.count
      rw [here.issuer] at ext
      rw [here.bytes] at bytes
      have explored : Explored q input (candidate :: top :: path) issuer :=
        .extend here.explored (List.mem_of_getElem? found) ext.fresh ext.read ext.named
          (by omega) (by rw [pathBytes_cons]; omega)
      rw [next]
      refine .running rfl rfl
        (.frame lower ⟨here.explored, here.issuer, here.bytes, here.count⟩ rfl found
          progress)
        ⟨explored, rfl, ?_, ?_⟩ ?_ failing
      · rw [pathBytes_cons, here.bytes, Nat.add_comm]
      · simp only [List.length_cons] at count room ⊢
        omega
      · intro _
        exact ⟨by simp, by simp⟩
  | popped anchorsEnd candidatesEnd next =>
    rw [next, hPath, hFrames]
    exact .pop lower here.explored
      (fun decided => (progress decided).barren here.explored anchorsEnd candidatesEnd)
      failing

theorem sound_of_stops {status : PathStatus} (stops : Stops q input status) :
    SearchSound q input ⟨status, none⟩ := by
  rcases stops with (rfl | rfl) | ⟨rfl, fault⟩
  · exact ⟨by simp, by simp, fun _ _ _ => .inl (.inl rfl), by simp⟩
  · exact ⟨by simp, by simp, fun _ _ _ => .inl (.inr rfl), by simp⟩
  · exact ⟨by simp, by simp, fun _ _ _ => .inr rfl, fun _ => fault⟩

theorem sound_of_barren (explored : Explored q input [input.target] certificate)
    (barren : Barren False q input [input.target]) : SearchSound q input ⟨.invalid, none⟩ := by
  refine ⟨by simp, ?_, ?_, by simp⟩
  · intro _ path anchor isPath anchored validation accepted
    obtain ⟨top, first, head, read, named⟩ := anchored.named
    have reached := isPath.explored head read
    have settled := barren path first reached reached.target_read.2
    exact (settled.1 anchor anchored.listed).2 validation anchored.usable named accepted
  · intro undecided _ _
    cases undecided with
    | targetBytes large =>
      have bounded : input.target.length ≤ input.maxInput := by
        simpa [pathBytes] using explored.bytes_le
      omega
    | targetRead e failed =>
      obtain ⟨top, rest, same, read⟩ := explored.read_head
      cases same
      rw [failed] at read
      cases read
    | anchor reached anchor listed undecided =>
      have settled := barren _ _ reached reached.target_read.2
      exact absurd undecided ((settled.1 anchor listed).1.resolve_left id)
    | candidate reached candidate listed undecided =>
      have settled := barren _ _ reached reached.target_read.2
      exact absurd undecided ((settled.2 candidate listed).resolve_left id)

theorem sound_of_report {initialWork : Nat} {s s' : Budgeted SearchState}
    {report : SearchReport V} (inv : SearchInv False q input s.data)
    (hFrames : s.data.frames = frame :: frames)
    (given : Gives (frameStep q input initialWork frame) s (some report) s') :
    SearchSound q input ⟨.valid, some report⟩ := by
  refine ⟨?_, by simp, by simp, by simp⟩
  intro _
  obtain ⟨top, path, certificate, hPath, here, -⟩ := inv.front hFrames
  simp only [frameStep, gives_bind, gives_charge] at given
  obtain ⟨_, _, ⟨enough, rfl⟩, given⟩ := given
  split at given
  · rename_i anchor found
    obtain ⟨same, index, usable, named, accepted⟩ := (anchorStep_gives given False.elim).1 report rfl
    simp only [hPath] at same accepted
    obtain ⟨_, _, head, read⟩ := here.explored.read_head
    cases head
    rw [here.issuer] at named
    rw [← index] at found
    refine ⟨report, anchor, rfl, ?_, found, ?_, ?_⟩
    all_goals rw [same]
    · exact here.explored.isPath here.count
    · exact ⟨List.mem_of_getElem? found, usable, top, certificate, rfl, read, named⟩
    · exact accepted
  · split at given
    · simp only [gives_bind, gives_pure, reduceCtorEq, false_and, and_false,
        exists_false] at given
    · simp only [gives_bind, gives_pure, reduceCtorEq, false_and, and_false,
        exists_false] at given

theorem searchLoop_sound {initialWork : Nat} {last : Certificate}
    (target : Explored q input [input.target] last) {s : Budgeted SearchState}
    (inv : SearchInv False q input s.data) :
    ∃ answer, (∀ fuel, s.work < fuel → searchLoop q input initialWork fuel s = some answer) ∧
      SearchSound q input answer := by
  induction hWork : s.work using Nat.strong_induction_on generalizing s with
  | _ work ih =>
    subst hWork
    cases hFrames : s.data.frames with
    | nil =>
      refine ⟨⟨s.data.failure, none⟩, ?_, ?_⟩
      · intro fuel enough
        obtain ⟨fuel, rfl⟩ := Nat.exists_eq_add_one.mpr (Nat.zero_lt_of_lt enough)
        simp [searchLoop, hFrames]
      · cases inv with
        | running _ hFrames' => simp [hFrames] at hFrames'
        | done _ barren failing =>
          rcases failing.failing with invalid | undecided
          · rw [invalid]
            exact sound_of_barren target (barren (.inr invalid))
          · exact sound_of_stops (.inl undecided)
    | cons frame frames =>
      rcases h : (frameStep q input initialWork frame).exec s with ⟨status | _ | report, s'⟩
      · refine ⟨⟨status, none⟩, ?_, sound_of_stops (frameStep_throws _ _ _ h)⟩
        intro fuel enough
        obtain ⟨fuel, rfl⟩ := Nat.exists_eq_add_one.mpr (Nat.zero_lt_of_lt enough)
        simp [searchLoop, hFrames, h]
      · obtain ⟨answer, ends, sound⟩ :=
          ih s'.work (frameStep_spends h) (frameStep_inv inv hFrames h False.elim) rfl
        refine ⟨answer, ?_, sound⟩
        intro fuel enough
        obtain ⟨fuel, rfl⟩ := Nat.exists_eq_add_one.mpr (Nat.zero_lt_of_lt enough)
        have spent := frameStep_spends h
        simpa [searchLoop, hFrames, h] using ends fuel (by omega)
      · refine ⟨⟨.valid, some report⟩, ?_, sound_of_report inv hFrames h⟩
        intro fuel enough
        obtain ⟨fuel, rfl⟩ := Nat.exists_eq_add_one.mpr (Nat.zero_lt_of_lt enough)
        simp [searchLoop, hFrames, h]

theorem unreached_of_unreadable {e : Result} (failed : q.read input.target = .error e) :
    ¬ Explored q input path certificate := by
  intro explored
  obtain ⟨last, target⟩ := explored.target_read.1
  obtain ⟨top, rest, same, read⟩ := target.read_head
  cases same
  rw [failed] at read
  cases read

theorem sound_of_unreadable {e : Result} (failed : q.read input.target = .error e)
    (bounded : ¬ input.target.length > input.maxInput) :
    SearchSound q input ⟨pathStatus e, none⟩ := by
  have unreached : ∀ path certificate, ¬ Explored q input path certificate := fun _ _ =>
    unreached_of_unreadable failed
  refine ⟨?_, ?_, ?_, ?_⟩
  · intro valid
    cases e <;> simp [pathStatus] at valid
    exact absurd failed certificateRead_failed
  · intro _ path anchor isPath anchored
    obtain ⟨top, first, head, read, -⟩ := anchored.named
    exact absurd (isPath.explored head read) (unreached _ _)
  · intro undecided _ _
    cases undecided with
    | targetBytes large => exact absurd large bounded
    | targetRead e' failed' undecided =>
      rw [failed, Except.error.injEq] at failed'
      rw [failed']
      exact .inl undecided
    | anchor reached => exact absurd reached (unreached _ _)
    | candidate reached => exact absurd reached (unreached _ _)
  · exact fun fault => .read input.target e failed fault

theorem pathSearchSource_sound (work : Nat) :
    ∃ answer, (∀ fuel, work < fuel → pathSearchSource q input fuel work = some answer) ∧
      SearchSound q input answer := by
  by_cases room : input.capacity = 0
  · exact ⟨⟨.limit, none⟩, by simp [pathSearchSource, room], sound_of_stops stops_limit⟩
  by_cases anchors : input.source.anchors = []
  · refine ⟨⟨.invalid, none⟩, by simp [pathSearchSource, room, anchors], by simp, ?_, ?_, by simp⟩
    · intro _ path anchor _ anchored
      simpa [anchors] using anchored.listed
    · intro _ present
      exact absurd anchors present
  by_cases large : input.target.length > input.maxInput
  · exact ⟨⟨.limit, none⟩, by simp [pathSearchSource, room, anchors, large],
      sound_of_stops stops_limit⟩
  simp only [pathSearchSource, room, anchors, large, if_false]
  rcases h : (searchRead q input.target).exec ⟨work, ⟨[], [], .invalid⟩⟩ with ⟨status | read, s⟩
  · exact absurd h (fun failed => @throws_answer _ _ _ (fun _ => False) _ _ _ _ _ failed)
  have spent : s.work ≤ work := spends_answer.of_gives h
  obtain ⟨answered, kept⟩ := gives_answer h
  cases read with
  | error e =>
    refine ⟨⟨pathStatus e, none⟩, fun _ _ => rfl, ?_⟩
    rcases answered with exhausted | result
    · cases exhausted
      exact sound_of_stops stops_limit
    · exact sound_of_unreadable result.symm large
  | ok certificate =>
    have read : q.read input.target = .ok certificate := by simpa [eq_comm] using answered
    have target : Explored q input [input.target] certificate := .target read (by omega)
    obtain ⟨answer, ends, sound⟩ := @searchLoop_sound V q input work certificate target
      ⟨s.work, _⟩ (.start target (by omega))
    exact ⟨answer, fun fuel enough => ends fuel (by simp only; omega), sound⟩

end TinyCrypto.X509
