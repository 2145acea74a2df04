import TinyCrypto.X509.NameCompare

/-! # Runs of the name comparison

Each loop of `x509_name.c` follows its list: the candidates of an attribute, the attributes of
an RDN and the RDNs of a Name.
-/

namespace TinyCrypto.X509

open Tlv Cms Library Library.Program Library.Metered

variable {sizeT sizeMax : Nat} {t : Unicode.Tables} {D : Type} {s s' : Budgeted D}
  {limits : Limits} {workspace : NameWorkspace}

def LeftPreparation.Holds (sizeT sizeMax : Nat) (t : Unicode.Tables) (first : NameAttribute) :
    LeftPreparation → Prop
  | .fresh => True
  | .prepared key => keyOf sizeT sizeMax t first = some key
  | .exact => keyOf sizeT sizeMax t first = none

variable {a second : NameAttribute} {left left' : LeftPreparation} {right : Bytes}
  {rights : List NameAttribute} {A : Type} {r : Except Result Bool} {subtree : Bool}

theorem trial_key {outcome : Except Result (List Nat)} (correct : t.Correct)
    (given : Gives (trial (prepareValue sizeT sizeMax t workspace a)) s outcome s') :
    (∀ key, outcome = .ok key → keyOf sizeT sizeMax t a = some key) ∧
      (outcome = .error .unsupported → keyOf sizeT sizeMax t a = none) := by
  rw [gives_trial] at given
  constructor
  · rintro key rfl
    exact (keyOf_iff correct).mpr (prepareValue_gives correct given)
  · rintro rfl
    rw [keyOf_none]
    rintro ⟨key, prepares⟩
    exact prepareValue_supported prepares _ _ _ given rfl

variable {first : NameAttribute}

theorem prepareLeft_gives (correct : t.Correct) (holds : left.Holds sizeT sizeMax t first)
    (given : Gives (prepareLeft sizeT sizeMax t workspace first left) s left' s') :
    left'.Holds sizeT sizeMax t first ∧ left' ≠ .fresh := by
  unfold prepareLeft at given
  split at given
  · rename_i ready
    obtain ⟨rfl, _⟩ := gives_pure.mp given
    exact ⟨holds, ready⟩
  · simp only [gives_bind] at given
    obtain ⟨outcome, _, tried, given⟩ := given
    obtain ⟨keyed, unkeyed⟩ := trial_key correct tried
    cases outcome with
    | ok key =>
      obtain ⟨rfl, _⟩ := gives_pure.mp given
      exact ⟨keyed key rfl, by simp⟩
    | error e =>
      dsimp only at given
      split at given
      · rename_i same
        obtain ⟨rfl, _⟩ := gives_pure.mp given
        exact ⟨unkeyed (by rw [same]), by simp⟩
      · exact absurd given gives_throw

variable {outcome : Comparison}

theorem compareExact_gives (given : Gives (compareExact first second) s outcome s') :
    outcome = if first.value = second.value then .matching else .undetermined := by
  simp only [compareExact, gives_bind, gives_pure] at given
  obtain ⟨_, _, _, rfl, _⟩ := given
  rfl

theorem attributeCompare_gives (correct : t.Correct)
    (types : first.oid = second.oid) (holds : left.Holds sizeT sizeMax t first)
    (given : Gives (attributeCompare sizeT sizeMax t workspace first second left) s (outcome, left') s') :
    outcome = pairOf sizeT sizeMax t first second ∧ left'.Holds sizeT sizeMax t first := by
  simp only [attributeCompare, gives_bind] at given
  obtain ⟨ready, _, prepared, given⟩ := given
  obtain ⟨ready_holds, not_fresh⟩ := prepareLeft_gives correct holds prepared
  rw [pairOf, if_neg (not_not.mpr types)]
  cases ready with
  | fresh => exact absurd rfl not_fresh
  | prepared key =>
    simp only [gives_bind] at given
    obtain ⟨tried, _, trial_given, given⟩ := given
    obtain ⟨keyed, unkeyed⟩ := trial_key correct trial_given
    cases tried with
    | ok key' =>
      simp only [gives_bind, gives_pure, Prod.mk.injEq] at given
      obtain ⟨_, _, _, ⟨rfl, rfl⟩, _⟩ := given
      simp only [LeftPreparation.Holds] at ready_holds
      rw [ready_holds, keyed key' rfl]
      exact ⟨rfl, ready_holds⟩
    | error e =>
      dsimp only at given
      split at given
      · rename_i same
        simp only [gives_bind, gives_pure, Prod.mk.injEq] at given
        obtain ⟨_, _, exact_given, ⟨rfl, rfl⟩, _⟩ := given
        rw [unkeyed (by rw [same]), compareExact_gives exact_given]
        refine ⟨?_, ready_holds⟩
        split <;> simp_all
      · exact absurd given gives_throw
  | exact =>
    simp only [gives_bind, gives_pure, Prod.mk.injEq] at given
    obtain ⟨_, _, exact_given, ⟨rfl, rfl⟩, _⟩ := given
    simp only [LeftPreparation.Holds] at ready_holds
    rw [ready_holds, compareExact_gives exact_given]
    exact ⟨rfl, ready_holds⟩

variable {reader : Reader}

theorem nextAttribute_gives {outcome : Option (NameAttribute × Reader)}
    (given : Gives (nextAttribute sizeT sizeMax limits reader) s outcome s') :
    (outcome = none ∧ reader.rest = []) ∨ ∃ found after, outcome = some (found, after) ∧
      attributeNext sizeT sizeMax limits reader = .ok (found, after) := by
  unfold nextAttribute at given
  split at given
  · rename_i empty
    simp only [gives_pure] at given
    exact .inl ⟨given.1.symm, empty⟩
  · simp only [gives_bind] at given
    obtain ⟨_, _, _, element, _, _, _, _, _, given⟩ := given
    split at given
    · rename_i found next
      simp only [gives_pure] at given
      exact .inr ⟨found.1, found.2, given.1.symm, next⟩
    · rename_i ended
      simp only [gives_pure] at given
      exact .inl ⟨given.1.symm, attributeNext_end ended⟩
    · exact absurd given gives_throw

variable {list : List NameAttribute}

theorem RdnAttributes.next_gives {outcome : Option (NameAttribute × Reader)}
    (attributes : RdnAttributes sizeT sizeMax reader.rest list)
    (given : Gives (nextAttribute sizeT sizeMax limits reader) s outcome s') :
    (outcome = none ∧ list = []) ∨ ∃ found after rest, outcome = some (found, after) ∧
      list = found :: rest ∧ RdnAttributes sizeT sizeMax after.rest rest ∧
      after.rest.length < reader.rest.length := by
  rcases nextAttribute_gives given with ⟨ended, empty⟩ | ⟨found, after, read, next⟩
  · rw [empty] at attributes
    exact .inl ⟨ended, attributes.unique .done⟩
  · right
    have shorter := attributeNext_shorter next
    generalize same : reader.rest = rest at attributes
    cases attributes with
    | done =>
      rw [same] at shorter
      cases shorter
    | more next' more =>
      obtain ⟨rfl, rests⟩ := attributeNext_agree same next next'
      exact ⟨found, after, _, read, rfl, rests ▸ more, same ▸ shorter⟩

theorem scanLoop_gives {first : NameAttribute} {passes : Nat} {reader : Reader}
    {list : List NameAttribute} {before marks : List Bool} {left : LeftPreparation}
    {undetermined : Bool} {outcome : Option (List Bool) × Bool} (correct : t.Correct)
    (attributes : RdnAttributes sizeT sizeMax reader.rest list)
    (enough : reader.rest.length ≤ passes) (sizes : marks.length = list.length)
    (holds : left.Holds sizeT sizeMax t first)
    (given : Gives (scanLoop sizeT sizeMax t limits workspace first passes reader before.length
      (before ++ marks) left undetermined) s outcome s') :
    outcome.1 = (Pairing.scan (pairOf sizeT sizeMax t) first undetermined
        (list.zip marks)).1.map (fun right => before ++ right.map (·.2)) ∧
      outcome.2 = (Pairing.scan (pairOf sizeT sizeMax t) first undetermined
        (list.zip marks)).2 := by
  induction passes generalizing reader list before marks left undetermined s with
  | zero =>
    have empty : reader.rest = [] := by simpa using enough
    rw [empty] at attributes
    rw [attributes.unique .done]
    simp only [scanLoop, gives_pure] at given
    obtain ⟨rfl, _⟩ := given
    exact ⟨rfl, rfl⟩
  | succ passes ih =>
    simp only [scanLoop, gives_bind] at given
    obtain ⟨read, _, next, given⟩ := given
    rcases attributes.next_gives next with ⟨rfl, rfl⟩ | ⟨second, after, rest, rfl, rfl, more, shorter⟩
    · obtain ⟨rfl, _⟩ := gives_pure.mp given
      exact ⟨rfl, rfl⟩
    · cases marks with
      | nil => simp at sizes
      | cons mark marks =>
        rw [List.length_cons, List.length_cons, Nat.add_right_cancel_iff] at sizes
        have at_index : (before ++ mark :: marks).getD before.length true = mark := by simp
        have regroup : before ++ mark :: marks = (before ++ [mark]) ++ marks := by simp
        have size : (before ++ [mark]).length = before.length + 1 := by simp
        dsimp only at given
        rw [at_index] at given
        rw [List.zip_cons_cons]
        have grouped : ∀ found : Option (List (NameAttribute × Bool)),
            found.map (fun right => before ++ [mark] ++ right.map (·.2)) =
              (found.map ((second, mark) :: ·)).map fun right => before ++ right.map (·.2) := by
          intro found
          cases found <;> simp
        cases mark with
        | true =>
          simp only [Bool.not_true, Bool.false_and, Bool.false_eq_true, if_false] at given
          rw [regroup, ← size] at given
          obtain ⟨first_part, second_part⟩ := ih more (by omega) sizes holds given
          rw [Pairing.scan]
          exact ⟨first_part.trans (grouped _), second_part⟩
        | false =>
          rw [Pairing.scan]
          by_cases types : first.oid = second.oid
          · simp only [types, Bool.not_false, decide_true, Bool.and_self, if_true, gives_bind]
              at given
            obtain ⟨⟨pair, left'⟩, _, compared, given⟩ := given
            obtain ⟨rfl, holds'⟩ := attributeCompare_gives correct types holds compared
            dsimp only at given
            split at given
            · rename_i matching
              obtain ⟨rfl, _⟩ := gives_pure.mp given
              rw [if_pos matching]
              have zipped : (rest.zip marks).map (·.2) = marks :=
                List.map_snd_zip (Nat.le_of_eq sizes)
              simp [zipped]
            · rename_i other
              rw [regroup, ← size] at given
              obtain ⟨first_part, second_part⟩ := ih more (by omega) sizes holds' given
              rw [if_neg other]
              exact ⟨first_part.trans (grouped _), second_part⟩
          · simp only [types, Bool.not_false, decide_false, Bool.and_false,
              Bool.false_eq_true, if_false] at given
            rw [regroup, ← size] at given
            obtain ⟨first_part, second_part⟩ := ih more (by omega) sizes holds given
            have other : pairOf sizeT sizeMax t first second = .mismatch := by
              rw [pairOf, if_pos types]
            rw [other, if_neg (by decide)]
            simp only [reduceCtorEq, decide_false, Bool.or_false]
            exact ⟨first_part.trans (grouped _), second_part⟩

theorem countLoop_gives {passes count total : Nat}
    (attributes : RdnAttributes sizeT sizeMax reader.rest list)
    (enough : reader.rest.length ≤ passes)
    (given : Gives (countLoop sizeT sizeMax limits workspace passes reader count) s total s') :
    total = count + list.length := by
  induction passes generalizing reader list count s with
  | zero =>
    have empty : reader.rest = [] := by simpa using enough
    rw [empty] at attributes
    simp only [countLoop, gives_pure] at given
    rw [attributes.unique .done, given.1]
    rfl
  | succ passes ih =>
    simp only [countLoop, gives_bind] at given
    obtain ⟨read, _, next, given⟩ := given
    rcases attributes.next_gives next with ⟨rfl, rfl⟩ | ⟨found, after, rest, rfl, rfl, more, shorter⟩
    · simp only [gives_pure] at given
      rw [given.1]
      rfl
    · dsimp only at given
      split at given
      · exact absurd given gives_throw
      · have whole := ih more (by omega) given
        rw [whole, List.length_cons]
        omega

variable {undetermined : Bool}

theorem scan_entries {pair : NameAttribute → NameAttribute → Comparison}
    {right right' : List (NameAttribute × Bool)}
    (found : (Pairing.scan pair a undetermined right).1 = some right') :
    right'.map (·.1) = right.map (·.1) := by
  rcases @Pairing.scan_cases _ pair a undetermined right with
    ⟨b, before, after, rfl, _, found'⟩ | ⟨missing, _⟩
  · cases found.symm.trans found'
    simp
  · cases found.symm.trans missing

theorem leftLoop_gives {passes seen : Nat} {marks : List Bool}
    (correct : t.Correct) (attributes : RdnAttributes sizeT sizeMax reader.rest list)
    (candidates : RdnAttributes sizeT sizeMax right rights)
    (enough : reader.rest.length ≤ passes) (sizes : marks.length = rights.length)
    (given : Gives (leftLoop sizeT sizeMax t limits workspace right rights.length passes reader seen marks
      undetermined) s outcome s') :
    outcome = Pairing.pairLoop (pairOf sizeT sizeMax t) rights.length seen undetermined list
      (rights.zip marks) := by
  induction passes generalizing reader list seen marks undetermined s with
  | zero =>
    have empty : reader.rest = [] := by simpa using enough
    rw [empty] at attributes
    simp only [leftLoop, gives_pure] at given
    rw [attributes.unique .done, ← given.1]
    rfl
  | succ passes ih =>
    simp only [leftLoop, gives_bind] at given
    obtain ⟨read, _, next, given⟩ := given
    rcases attributes.next_gives next with ⟨rfl, rfl⟩ | ⟨first, after, rest, rfl, rfl, more, shorter⟩
    · simp only [gives_pure] at given
      rw [← given.1]
      rfl
    · rw [Pairing.pairLoop]
      dsimp only at given
      split at given
      · rename_i exceeded
        simp only [gives_pure] at given
        rw [if_pos exceeded, given.1]
      · rename_i within
        rw [if_neg within]
        simp only [gives_bind, gives_lift] at given
        obtain ⟨b, _, ⟨opened, rfl⟩, ⟨found, open_pair⟩, _, scanned, given⟩ := given
        have start := readerInit_rest opened
        rw [← start] at candidates
        obtain ⟨first_part, second_part⟩ := @scanLoop_gives sizeT sizeMax t D _ _ limits
          workspace first right.length b rights [] marks .fresh false _ correct candidates
          (by rw [start]) sizes trivial scanned
        rw [start] at candidates
        dsimp only at first_part second_part
        generalize scan_eq : Pairing.scan (pairOf sizeT sizeMax t) first false
          (rights.zip marks) = result at first_part second_part ⊢
        obtain ⟨right', open'⟩ := result
        dsimp only at first_part second_part
        rw [second_part] at given
        cases right' with
        | none =>
          rw [first_part] at given
          cases open' with
          | true => exact ih more (by omega) sizes given
          | false =>
            simp only [Option.map_none, gives_pure] at given
            exact given.1.symm
        | some right' =>
          rw [first_part] at given
          have entries := scan_entries (congrArg Prod.fst scan_eq)
          rw [List.map_fst_zip (Nat.le_of_eq sizes.symm)] at entries
          have size : (right'.map (·.2)).length = rights.length := by
            rw [List.length_map, ← entries, List.length_map]
          have zipped : rights.zip (right'.map (·.2)) = right' :=
            (List.zip_of_prod entries rfl).symm
          have rest_eq := ih more (by omega) size given
          rw [zipped] at rest_eq
          exact rest_eq

theorem rdnCompare_gives {left : Bytes} {lefts : List NameAttribute} (correct : t.Correct)
    (attributes : RdnAttributes sizeT sizeMax left lefts)
    (candidates : RdnAttributes sizeT sizeMax right rights)
    (given : Gives (rdnCompare sizeT sizeMax t limits workspace left right) s outcome s') :
    outcome = Pairing.firstFit (pairOf sizeT sizeMax t) lefts rights := by
  simp only [rdnCompare, gives_bind, gives_lift] at given
  obtain ⟨b, _, ⟨opened, rfl⟩, count, _, counted, a, _, ⟨opened', rfl⟩, looped⟩ := given
  have total := countLoop_gives (readerInit_rest opened ▸ candidates)
    (by rw [readerInit_rest opened]) counted
  rw [Nat.zero_add] at total
  rw [total] at looped
  have outcome_eq := leftLoop_gives correct (readerInit_rest opened' ▸ attributes) candidates
    (by rw [readerInit_rest opened']) List.length_replicate looped
  have fresh : rights.zip (List.replicate rights.length false) = rights.map (·, false) := by
    refine (List.zip_of_prod ?_ ?_).symm
    · rw [List.map_map]
      exact List.map_id rights
    · rw [List.map_map]
      exact List.map_const
  rw [outcome_eq, fresh]
  rfl

noncomputable def rdnsCompare (sizeT sizeMax : Nat) (t : Unicode.Tables) (subtree : Bool) :
    (undetermined : Bool) → (lefts rights : List (List NameAttribute)) → Comparison
  | undetermined, lefts, [] =>
    if !subtree && lefts ≠ [] then .mismatch
    else if undetermined then .undetermined else .matching
  | _, [], _ :: _ => .mismatch
  | undetermined, left :: lefts, right :: rights =>
    match Pairing.firstFit (pairOf sizeT sizeMax t) left right with
    | .mismatch => .mismatch
    | .matching => rdnsCompare sizeT sizeMax t subtree undetermined lefts rights
    | .undetermined => rdnsCompare sizeT sizeMax t subtree true lefts rights

inductive Reports : Except Result Bool → Comparison → Prop where
  | matching : Reports (.ok true) .matching
  | mismatch : Reports (.ok false) .mismatch
  | undetermined : Reports (.error .unsupported) .undetermined

theorem ReadError.supported {m : Except Result A}
    (failed : ∀ e, m = .error e → e = .end ∨ ReadError e) :
    Excludes .unsupported (lift m : Metered Result D A) := by
  refine .of_lift fun same => ?_
  rcases failed _ same with ended | inner
  · cases ended
  · exact inner.ne.2.2 rfl

theorem nextAttribute_supported (reader : Reader) : Excludes .unsupported
    (nextAttribute sizeT sizeMax limits reader :
      Metered Result D (Option (NameAttribute × Reader))) := by
  unfold nextAttribute
  split
  · exact .of_pure _
  · refine (Unicode.limit_supported 1).bind fun _ => ?_
    refine (ReadError.supported fun e failed => .inr (read_error failed)).bind fun element => ?_
    refine (Unicode.limit_supported _).bind fun _ => ?_
    split
    · exact .of_pure _
    · exact .of_pure _
    · rename_i e _ failed
      refine .of_throw ?_
      rintro rfl
      rcases attributeNext_error failed with ⟨ended, _⟩ | inner
      · cases ended
      · exact inner.ne.2.2 rfl

theorem trial_supported {B : Type} (m : Metered Result D A)
    {f : Except Result A → Metered Result D B} (completed : ∀ a, Excludes .unsupported (f (.ok a)))
    (failed : ∀ e, Excludes .unsupported (f (.error e))) :
    Excludes .unsupported (trial m >>= f) := by
  refine (Excludes.of_trial m).bind fun outcome => ?_
  cases outcome with
  | ok a => exact completed a
  | error e => exact failed e

theorem attributeCompare_supported (first second : NameAttribute) (left : LeftPreparation) :
    Excludes .unsupported (attributeCompare sizeT sizeMax t workspace first second left :
      Metered Result D (Comparison × LeftPreparation)) := by
  have exactly : Excludes .unsupported
      (compareExact first second : Metered Result D Comparison) :=
    (Unicode.limit_supported _).bind fun _ => .of_pure _
  unfold attributeCompare
  apply Excludes.bind
  · unfold prepareLeft
    split
    · exact .of_pure _
    · refine trial_supported _ (fun _ => .of_pure _) fun e => ?_
      dsimp only
      split
      · exact .of_pure _
      · rename_i other
        exact .of_throw other
  · intro left
    cases left with
    | fresh | exact => exact exactly.bind fun _ => .of_pure _
    | prepared key =>
      refine trial_supported _ (fun _ => ?_) fun e => ?_
      · exact (Unicode.limit_supported _).bind fun _ => .of_pure _
      · dsimp only
        by_cases unmatched : e = .unsupported
        · rw [if_pos unmatched]
          exact exactly.bind fun _ => .of_pure _
        · rw [if_neg unmatched]
          exact .of_throw unmatched

theorem scanLoop_supported (first : NameAttribute) (passes : Nat) (reader : Reader) (index : Nat)
    (marks : List Bool) (left : LeftPreparation) (undetermined : Bool) :
    Excludes .unsupported (scanLoop sizeT sizeMax t limits workspace first passes reader index
      marks left undetermined : Metered Result D (Option (List Bool) × Bool)) := by
  induction passes generalizing reader index left undetermined with
  | zero => exact .of_pure _
  | succ passes ih =>
    refine (nextAttribute_supported reader).bind fun read => ?_
    cases read with
    | none => exact .of_pure _
    | some found =>
      dsimp only
      split
      · refine (attributeCompare_supported first found.1 left).bind fun compared => ?_
        split
        · exact .of_pure _
        · exact ih _ _ _ _
      · exact ih _ _ _ _

theorem countLoop_supported (passes : Nat) (reader : Reader) (count : Nat) :
    Excludes .unsupported (countLoop sizeT sizeMax limits workspace passes reader count :
      Metered Result D Nat) := by
  induction passes generalizing reader count with
  | zero => exact .of_pure _
  | succ passes ih =>
    refine (nextAttribute_supported reader).bind fun read => ?_
    cases read with
    | none => exact .of_pure _
    | some found =>
      dsimp only
      split
      · exact .of_throw (by decide)
      · exact ih _ _

theorem readerInit_supported (input : Bytes) :
    Excludes .unsupported (lift (readerInit limits input) : Metered Result D Reader) :=
  ReadError.supported fun _ failed => .inr (readerInit_error failed)

theorem leftLoop_supported (right : Bytes) (count passes : Nat) (reader : Reader) (seen : Nat)
    (marks : List Bool) (undetermined : Bool) :
    Excludes .unsupported (leftLoop sizeT sizeMax t limits workspace right count passes reader
      seen marks undetermined : Metered Result D Comparison) := by
  induction passes generalizing reader seen marks undetermined with
  | zero => exact .of_pure _
  | succ passes ih =>
    refine (nextAttribute_supported reader).bind fun read => ?_
    cases read with
    | none => exact .of_pure _
    | some found =>
      dsimp only
      split
      · exact .of_pure _
      · refine (readerInit_supported right).bind fun b => ?_
        refine (scanLoop_supported _ _ _ _ _ _ _).bind fun scanned => ?_
        obtain ⟨found, open_pair⟩ := scanned
        cases found with
        | some marks => exact ih _ _ _ _
        | none =>
          cases open_pair with
          | true => exact ih _ _ _ _
          | false => exact .of_pure _

theorem rdnCompare_supported (left right : Bytes) :
    Excludes .unsupported (rdnCompare sizeT sizeMax t limits workspace left right :
      Metered Result D Comparison) := by
  refine (readerInit_supported right).bind fun b => ?_
  refine (countLoop_supported _ _ _).bind fun count => ?_
  exact (readerInit_supported left).bind fun a => leftLoop_supported _ _ _ _ _ _ _

theorem openName_supported (input : Bytes) :
    Excludes .unsupported (openName sizeT sizeMax limits input :
      Metered Result D (Limits × Reader)) := by
  refine (Unicode.limit_supported _).bind fun _ => (Unicode.limit_supported _).bind fun _ => ?_
  refine (ReadError.supported fun _ failed => .inr (nameInit_error failed)).bind fun opened => ?_
  exact (ReadError.supported fun _ failed => .inr (validateLoop_error failed)).bind
    fun _ => .of_pure _

variable {contents : Bytes} {rdns : List (List NameAttribute)}

theorem NameRdns.leading {reader after : Reader} (whole : NameRdns sizeT sizeMax reader.rest rdns)
    (parsed : rdnNext sizeT sizeMax limits reader = .ok (contents, after)) :
    ∃ list others, rdns = list :: others ∧ RdnAttributes sizeT sizeMax contents list ∧
      NameRdns sizeT sizeMax after.rest others := by
  generalize same : reader.rest = input at whole
  cases whole with
  | done =>
    have shorter := (rdnNext_attributes parsed).1
    rw [same] at shorter
    cases shorter
  | more parsed' attributes others =>
    obtain ⟨rfl, rests⟩ := rdnNext_agree same parsed parsed'
    exact ⟨_, _, rfl, attributes, rests ▸ others⟩

theorem NameRdns.nil_iff (whole : NameRdns sizeT sizeMax contents rdns) :
    contents = [] ↔ rdns = [] := by
  cases whole with
  | done => exact ⟨fun _ => rfl, fun _ => rfl⟩
  | more parsed _ _ =>
    have shorter := (rdnNext_attributes parsed).1
    have filled := List.ne_nil_of_length_pos (Nat.zero_lt_of_lt shorter)
    exact ⟨fun empty => absurd empty filled, nofun⟩

theorem nameOutcome_reports {undetermined : Bool} (whole : NameRdns sizeT sizeMax contents rdns)
    (run : (nameOutcome subtree (contents = []) undetermined : Metered Result D Bool).exec s = (r, s'))
    (reports : Reports r outcome) :
    rdnsCompare sizeT sizeMax t subtree undetermined rdns [] = outcome := by
  have ended : decide (contents = []) = decide (rdns = []) := by
    simp only [whole.nil_iff]
  rw [ended] at run
  cases subtree <;> by_cases empty : rdns = [] <;> cases undetermined <;>
    simp only [rdnsCompare, nameOutcome, empty] at run ⊢ <;> cases run <;> cases reports <;> simp [empty]

theorem nameLoop_reports {la lb : Limits} {passes : Nat} {a b : Reader}
    {lefts rights : List (List NameAttribute)} (correct : t.Correct)
    (left : NameRdns sizeT sizeMax a.rest lefts)
    (right : NameRdns sizeT sizeMax b.rest rights) (enough : b.rest.length ≤ passes)
    (run : (nameLoop sizeT sizeMax t limits workspace subtree la lb passes a b undetermined).exec s = (r, s'))
    (reports : Reports r outcome) :
    rdnsCompare sizeT sizeMax t subtree undetermined lefts rights = outcome := by
  induction passes generalizing a b undetermined lefts rights s with
  | zero =>
    have empty : b.rest = [] := List.eq_nil_of_length_eq_zero (Nat.le_zero.mp enough)
    have ended : rights = [] := right.nil_iff.mp empty
    subst ended
    exact nameOutcome_reports left run reports
  | succ passes ih =>
    rw [nameLoop] at run
    split at run
    · rename_i ended
      have finished : rights = [] := right.nil_iff.mp (rdnNext_end ended)
      subst finished
      exact nameOutcome_reports left run reports
    · rename_i e _ failed
      cases run
      cases reports
      rcases rdnNext_error failed with ⟨other, _⟩ | inner
      · cases other
      · exact absurd rfl inner.ne.2.2
    · rename_i rdnB b' parsedB
      obtain ⟨listB, rights', rfl, attributesB, othersB⟩ := right.leading parsedB
      have shorter := (rdnNext_attributes parsedB).1
      split at run
      · rename_i ended
        have finished : lefts = [] := left.nil_iff.mp (rdnNext_end ended)
        subst finished
        cases run
        cases reports
        rfl
      · rename_i e _ failed
        cases run
        cases reports
        rcases rdnNext_error failed with ⟨other, _⟩ | inner
        · cases other
        · exact absurd rfl inner.ne.2.2
      · rename_i rdnA a' parsedA
        obtain ⟨listA, lefts', rfl, attributesA, othersA⟩ := left.leading parsedA
        rw [exec_bind] at run
        rcases compared : (rdnCompare sizeT sizeMax t limits workspace rdnA rdnB).exec s with
          ⟨e | found, middle⟩
        · rw [compared] at run
          cases run
          cases reports
          exact absurd rfl (rdnCompare_supported _ _ _ _ _ compared)
        · rw [compared] at run
          have fit := rdnCompare_gives correct attributesA attributesB compared
          rw [rdnsCompare, ← fit]
          cases found with
          | mismatch =>
            cases run
            cases reports
            rfl
          | matching => exact ih othersA othersB (by omega) run
          | undetermined => exact ih othersA othersB (by omega) run

end TinyCrypto.X509
