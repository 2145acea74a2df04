import Mathlib.Data.List.Zip
import TinyCrypto.X509.NameRuns

/-! # Equal names

Names are equal when their RDNs pair up, position by position, attributes that are equal. A
reported comparison decides this; an undetermined one says only that nothing pairs.
-/

namespace TinyCrypto.X509

open Tlv Cms Library Library.Program Library.Metered

def NamesEqual (sizeT sizeMax : Nat) (t : Unicode.Tables)
    (lefts rights : List (List NameAttribute)) : Prop :=
  List.Forall₂ (Pairs (AttributesEqual sizeT sizeMax t)) lefts rights

variable {sizeT sizeMax : Nat} {t : Unicode.Tables} {D : Type} {s s' : Budgeted D}
  {limits : Limits} {workspace : NameWorkspace}

theorem same_equal (correct : t.Correct) :
    Pairing.Same (pairOf sizeT sizeMax t) = AttributesEqual sizeT sizeMax t := by
  funext a b
  exact propext (pairOf_equal correct)

theorem attributesEqual_equivalence (correct : t.Correct) :
    Equivalence (AttributesEqual sizeT sizeMax t) :=
  same_equal correct ▸ pairOf_equivalence correct

theorem firstFit_equal (correct : t.Correct) {left right : List NameAttribute} :
    Pairing.firstFit (pairOf sizeT sizeMax t) left right = .matching ↔
      Pairs (AttributesEqual sizeT sizeMax t) left right := by
  rw [Pairing.firstFit_matching (pairOf_equivalence correct), same_equal correct]

theorem rdnsCompare_matching (correct : t.Correct) {subtree undetermined : Bool}
    {lefts rights : List (List NameAttribute)} :
    rdnsCompare sizeT sizeMax t subtree undetermined lefts rights = .matching ↔
      undetermined = false ∧ ∃ lead more, lefts = lead ++ more ∧ (subtree = false → more = []) ∧
        NamesEqual sizeT sizeMax t lead rights := by
  induction rights generalizing lefts undetermined with
  | nil =>
    have nothing : ∀ lead, NamesEqual sizeT sizeMax t lead [] ↔ lead = [] :=
      fun lead => List.forall₂_nil_right_iff
    cases subtree <;> cases undetermined <;> by_cases ended : lefts = [] <;>
      simp [rdnsCompare, nothing, ended]
  | cons right rights ih =>
    cases lefts with
    | nil =>
      refine ⟨fun same => by simp [rdnsCompare] at same, ?_⟩
      rintro ⟨_, lead, more, whole, _, all⟩
      rw [(List.append_eq_nil_iff.mp whole.symm).1] at all
      cases all
    | cons left lefts =>
      have parts : (undetermined = false ∧ ∃ lead more, left :: lefts = lead ++ more ∧
          (subtree = false → more = []) ∧ NamesEqual sizeT sizeMax t lead (right :: rights)) ↔
          Pairs (AttributesEqual sizeT sizeMax t) left right ∧ undetermined = false ∧
            ∃ lead more, lefts = lead ++ more ∧ (subtree = false → more = []) ∧
              NamesEqual sizeT sizeMax t lead rights := by
        constructor
        · rintro ⟨clear, lead, more, whole, last, all⟩
          cases all with
          | cons first others =>
            obtain ⟨rfl, rest⟩ := List.cons.inj whole
            exact ⟨first, clear, _, more, rest, last, others⟩
        · rintro ⟨first, clear, lead, more, rfl, last, others⟩
          exact ⟨clear, left :: lead, more, rfl, last, .cons first others⟩
      rw [parts, ← firstFit_equal correct, rdnsCompare]
      split
      · rename_i outcome
        simp [outcome]
      · rename_i outcome
        rw [outcome, ih]
        exact ⟨fun others => ⟨rfl, others⟩, fun both => both.2⟩
      · rename_i outcome
        rw [outcome, ih]
        simp

variable {lefts rights : List (List NameAttribute)}

theorem rdnsCompare_equal (correct : t.Correct) :
    rdnsCompare sizeT sizeMax t false false lefts rights = .matching ↔
      NamesEqual sizeT sizeMax t lefts rights := by
  rw [rdnsCompare_matching correct]
  constructor
  · rintro ⟨_, lead, more, rfl, last, all⟩
    rwa [last rfl, List.append_nil]
  · exact fun all => ⟨rfl, lefts, [], (List.append_nil lefts).symm, fun _ => rfl, all⟩

theorem rdnsCompare_mismatch {undetermined : Bool} :
    rdnsCompare sizeT sizeMax t false undetermined lefts rights = .mismatch ↔
      ¬List.Forall₂ (fun left right =>
        Pairing.firstFit (pairOf sizeT sizeMax t) left right ≠ .mismatch) lefts rights := by
  induction rights generalizing lefts undetermined with
  | nil => cases lefts <;> cases undetermined <;> simp [rdnsCompare]
  | cons right rights ih =>
    cases lefts with
    | nil => simp [rdnsCompare]
    | cons left lefts =>
      rw [rdnsCompare, List.forall₂_cons]
      split
      · rename_i outcome
        simp [outcome]
      · rename_i outcome
        simp [outcome, ih]
      · rename_i outcome
        simp [outcome, ih]

theorem openName_gives {input : Bytes} {opened : Limits × Reader}
    (given : Gives (openName sizeT sizeMax limits input) s opened s') :
    ∃ rdns, NameParses sizeT sizeMax input rdns ∧ NameRdns sizeT sizeMax opened.2.rest rdns := by
  simp only [openName, gives_bind, gives_charge, gives_lift, gives_pure] at given
  obtain ⟨_, _, _, _, _, _, found, _, ⟨start, _⟩, _, _, ⟨valid, _⟩, rfl, _⟩ := given
  obtain ⟨rdns, whole⟩ := validateLoop_rdns le_rfl valid
  exact ⟨rdns, ⟨limits, found.1, found.2, start, whole⟩, whole⟩

theorem NameParses.unique {encoded : Bytes} {rdns rdns' : List (List NameAttribute)}
    (first : NameParses sizeT sizeMax encoded rdns)
    (second : NameParses sizeT sizeMax encoded rdns') : rdns = rdns' := by
  obtain ⟨limits, below, reader, start, whole⟩ := first
  obtain ⟨limits', below', reader', start', whole'⟩ := second
  obtain ⟨element, one, start⟩ := bind_ok.mp start
  obtain ⟨element', one', start'⟩ := bind_ok.mp start'
  obtain rfl := read_agree one one'
  split at start
  · cases start
  split at start'
  · cases start'
  obtain ⟨opened, within, start⟩ := bind_ok.mp start
  obtain ⟨opened', within', start'⟩ := bind_ok.mp start'
  split at start
  · cases start
  split at start'
  · cases start'
  cases start
  cases start'
  have rests : opened.rest = opened'.rest :=
    (readerInit_rest within).trans (readerInit_rest within').symm
  exact whole.unique (rests ▸ whole')

variable {left right : Bytes}

section

variable (correct : t.Correct)

include correct

theorem nameMatch_reports {subtree : Bool} {r : Except Result Bool} {outcome : Comparison}
    (run : (nameMatch sizeT sizeMax t limits workspace subtree left right).exec s = (r, s'))
    (reports : Reports r outcome) : ∃ lefts rights, NameParses sizeT sizeMax left lefts ∧
      NameParses sizeT sizeMax right rights ∧
        rdnsCompare sizeT sizeMax t subtree false lefts rights = outcome := by
  have supported : ∀ input (s₁ s₂ : Budgeted D),
      (openName sizeT sizeMax limits input).exec s₁ ≠ (.error .unsupported, s₂) :=
    fun input _ _ failed => openName_supported input _ _ _ failed rfl
  rw [nameMatch, exec_bind] at run
  rcases opened : (openName sizeT sizeMax limits left : Metered Result D _).exec s with
    ⟨e | ⟨la, a⟩, middle⟩
  · rw [opened] at run
    cases run
    cases reports
    exact absurd opened (supported _ _ _)
  rw [opened] at run
  dsimp only at run
  rw [exec_bind] at run
  rcases opened' : (openName sizeT sizeMax limits right : Metered Result D _).exec middle with
    ⟨e | ⟨lb, b⟩, last⟩
  · rw [opened'] at run
    cases run
    cases reports
    exact absurd opened' (supported _ _ _)
  rw [opened'] at run
  obtain ⟨lefts, parses, whole⟩ := openName_gives opened
  obtain ⟨rights, parses', whole'⟩ := openName_gives opened'
  exact ⟨lefts, rights, parses, parses', nameLoop_reports correct whole whole' le_rfl run reports⟩

theorem nameEqual_reports {r : Except Result Bool} {outcome : Comparison}
    {lefts rights : List (List NameAttribute)}
    (run : (nameEqual sizeT sizeMax t limits workspace left right).exec s = (r, s'))
    (reports : Reports r outcome) (parses : NameParses sizeT sizeMax left lefts)
    (parses' : NameParses sizeT sizeMax right rights) :
    rdnsCompare sizeT sizeMax t false false lefts rights = outcome := by
  obtain ⟨lefts', rights', first, second, compared⟩ := nameMatch_reports correct run reports
  rw [parses.unique first, parses'.unique second]
  exact compared

theorem NamesEqual.symm {lefts rights : List (List NameAttribute)}
    (equal : NamesEqual sizeT sizeMax t lefts rights) : NamesEqual sizeT sizeMax t rights lefts :=
  equal.flip.imp fun _ _ => Pairs.symm (attributesEqual_equivalence correct).symm

theorem NamesEqual.trans {lefts middles rights : List (List NameAttribute)}
    (first : NamesEqual sizeT sizeMax t lefts middles)
    (second : NamesEqual sizeT sizeMax t middles rights) :
    NamesEqual sizeT sizeMax t lefts rights := by
  induction first generalizing rights with
  | nil => exact second
  | cons pairs _ ih =>
    cases second with
    | cons pairs' others =>
      exact .cons (pairs.trans (attributesEqual_equivalence correct).trans pairs') (ih others)

theorem nameEqual_gives {m : Bool}
    (given : Gives (nameEqual sizeT sizeMax t limits workspace left right) s m s') :
    ∃ lefts rights, NameParses sizeT sizeMax left lefts ∧ NameParses sizeT sizeMax right rights ∧
        (m = true ↔ NamesEqual sizeT sizeMax t lefts rights) := by
  cases m with
  | true =>
    obtain ⟨lefts, rights, first, second, compared⟩ := nameMatch_reports correct given .matching
    exact ⟨lefts, rights, first, second, iff_of_true rfl ((rdnsCompare_equal correct).mp compared)⟩
  | false =>
    obtain ⟨lefts, rights, first, second, compared⟩ := nameMatch_reports correct given .mismatch
    refine ⟨lefts, rights, first, second, iff_of_false nofun fun equal => ?_⟩
    rw [(rdnsCompare_equal correct).mpr equal] at compared
    cases compared

theorem nameEqual_iff {m : Bool} {lefts rights : List (List NameAttribute)}
    (parses : NameParses sizeT sizeMax left lefts) (parses' : NameParses sizeT sizeMax right rights)
    (given : Gives (nameEqual sizeT sizeMax t limits workspace left right) s m s') :
    m = true ↔ NamesEqual sizeT sizeMax t lefts rights := by
  obtain ⟨lefts', rights', first, second, verdict⟩ := nameEqual_gives correct given
  rw [parses.unique first, parses'.unique second]
  exact verdict

theorem nameEqual_refl {m : Bool}
    (given : Gives (nameEqual sizeT sizeMax t limits workspace left left) s m s') : m = true := by
  obtain ⟨lefts, rights, first, second, verdict⟩ := nameEqual_gives correct given
  obtain rfl := first.unique second
  exact verdict.mpr (List.forall₂_same.mpr fun list _ =>
    Pairs.refl (attributesEqual_equivalence correct).refl list)

variable {limits' : Limits} {workspace' : NameWorkspace} {s₁ s₁' : Budgeted D}

theorem nameEqual_symm {m m' : Bool}
    (given : Gives (nameEqual sizeT sizeMax t limits workspace left right) s m s')
    (given' : Gives (nameEqual sizeT sizeMax t limits' workspace' right left) s₁ m' s₁') :
    m = m' := by
  obtain ⟨lefts, rights, first, second, verdict⟩ := nameEqual_gives correct given
  have back := nameEqual_iff correct second first given'
  rw [Bool.eq_iff_iff, verdict, back]
  exact ⟨fun equal => equal.symm correct, fun equal => equal.symm correct⟩

theorem nameEqual_trans {limits'' : Limits} {workspace'' : NameWorkspace} {middle : Bytes}
    {s₂ s₂' : Budgeted D} {m : Bool}
    (given : Gives (nameEqual sizeT sizeMax t limits workspace left middle) s true s')
    (given' : Gives (nameEqual sizeT sizeMax t limits' workspace' middle right) s₁ true s₁')
    (given'' : Gives (nameEqual sizeT sizeMax t limits'' workspace'' left right) s₂ m s₂') :
    m = true := by
  obtain ⟨lefts, middles, first, second, verdict⟩ := nameEqual_gives correct given
  obtain ⟨middles', rights, second', third, verdict'⟩ := nameEqual_gives correct given'
  obtain rfl := second.unique second'
  have through := (verdict.mp rfl).trans correct (verdict'.mp rfl)
  exact (nameEqual_iff correct first third given'').mpr through

theorem nameWithin_gives {m : Bool}
    (given : Gives (nameWithin sizeT sizeMax t limits workspace left right) s m s') :
    ∃ lefts rights, NameParses sizeT sizeMax left lefts ∧ NameParses sizeT sizeMax right rights ∧
        (m = true ↔ ∃ lead more, lefts = lead ++ more ∧
          NamesEqual sizeT sizeMax t lead rights) := by
  cases m with
  | true =>
    obtain ⟨lefts, rights, first, second, compared⟩ := nameMatch_reports correct given .matching
    obtain ⟨_, lead, more, whole, _, equal⟩ := (rdnsCompare_matching correct).mp compared
    exact ⟨lefts, rights, first, second, iff_of_true rfl ⟨lead, more, whole, equal⟩⟩
  | false =>
    obtain ⟨lefts, rights, first, second, compared⟩ := nameMatch_reports correct given .mismatch
    refine ⟨lefts, rights, first, second, iff_of_false nofun ?_⟩
    rintro ⟨lead, more, whole, equal⟩
    have matching := (@rdnsCompare_matching sizeT sizeMax t correct true false lefts
      rights).mpr ⟨rfl, lead, more, whole, nofun, equal⟩
    rw [matching] at compared
    cases compared

end

/-- The comparison of names decides their equality, which is an equivalence on what it decides;
    it misses no pairing, also where it decides nothing. -/
theorem name_equality (correct : t.Correct) :
    (∀ (limits : Limits) (workspace : NameWorkspace) (left right : Bytes) (s s' : Budgeted D) m,
      Gives (nameEqual sizeT sizeMax t limits workspace left right) s m s' →
        ∃ lefts rights, NameParses sizeT sizeMax left lefts ∧
          NameParses sizeT sizeMax right rights ∧
            (m = true ↔ NamesEqual sizeT sizeMax t lefts rights)) ∧
    (∀ (limits : Limits) (workspace : NameWorkspace) (left right : Bytes) (s s' : Budgeted D),
      (nameEqual sizeT sizeMax t limits workspace left right).exec s = (.error .unsupported, s') →
        ∃ lefts rights, NameParses sizeT sizeMax left lefts ∧
          NameParses sizeT sizeMax right rights ∧ ¬NamesEqual sizeT sizeMax t lefts rights) ∧
    (∀ (limits : Limits) (workspace : NameWorkspace) (name : Bytes) (s s' : Budgeted D) m,
      Gives (nameEqual sizeT sizeMax t limits workspace name name) s m s' → m = true) ∧
    (∀ (limits limits' : Limits) (workspace workspace' : NameWorkspace) (left right : Bytes)
      (s s' s₁ s₁' : Budgeted D) m m',
      Gives (nameEqual sizeT sizeMax t limits workspace left right) s m s' →
        Gives (nameEqual sizeT sizeMax t limits' workspace' right left) s₁ m' s₁' → m = m') ∧
    (∀ (limits limits' limits'' : Limits) (workspace workspace' workspace'' : NameWorkspace)
      (left middle right : Bytes) (s s' s₁ s₁' s₂ s₂' : Budgeted D) m,
      Gives (nameEqual sizeT sizeMax t limits workspace left middle) s true s' →
        Gives (nameEqual sizeT sizeMax t limits' workspace' middle right) s₁ true s₁' →
          Gives (nameEqual sizeT sizeMax t limits'' workspace'' left right) s₂ m s₂' → m = true) ∧
    (∀ (limits : Limits) (workspace : NameWorkspace) (left right : Bytes) (s s' : Budgeted D) m,
      Gives (nameWithin sizeT sizeMax t limits workspace left right) s m s' →
        ∃ lefts rights, NameParses sizeT sizeMax left lefts ∧
          NameParses sizeT sizeMax right rights ∧ (m = true ↔ ∃ lead more, lefts = lead ++ more ∧
              NamesEqual sizeT sizeMax t lead rights)) := by
  refine ⟨fun _ _ _ _ _ _ _ given => nameEqual_gives correct given, ?_, ?_, ?_, ?_,
    fun _ _ _ _ _ _ _ given => nameWithin_gives correct given⟩
  · intro limits workspace left right s s' run
    obtain ⟨lefts, rights, first, second, compared⟩ := nameMatch_reports correct run .undetermined
    refine ⟨lefts, rights, first, second, fun equal => ?_⟩
    rw [(rdnsCompare_equal correct).mpr equal] at compared
    cases compared
  · intro limits workspace name s s' m given
    exact nameEqual_refl correct given
  · intro limits limits' workspace workspace' left right s s' s₁ s₁' m m' given given'
    exact nameEqual_symm correct given given'
  · intro limits limits' limits'' workspace workspace' workspace'' left middle right s s' s₁ s₁' s₂
      s₂' m given given' given''
    exact nameEqual_trans correct given given' given''

def shortAttribute (tag character : UInt8) : Bytes := [0x30, 8, 6, 3, 0x55, 4, 3, tag, 1, character]

def pairName (first second : Bytes) : Bytes := [0x30, 22, 0x31, 20] ++ first ++ second

def shortLimits : Limits := ⟨100, 100, 4, 20⟩

/-- Two attributes in one order and, with their tags exchanged, in the other. -/
theorem name_equality_crossed : ∃ lefts rights,
      NameParses 8 (2 ^ 64 - 1) (pairName (shortAttribute 0x0c 0x31) (shortAttribute 0x13 0x32))
        lefts ∧
      NameParses 8 (2 ^ 64 - 1) (pairName (shortAttribute 0x0c 0x32) (shortAttribute 0x13 0x31))
        rights ∧ (true = true ↔ NamesEqual 8 (2 ^ 64 - 1) Unicode.plainTables lefts rights) := by
  have run : ((nameEqual 8 (2 ^ 64 - 1) Unicode.plainTables shortLimits ⟨4, 2⟩
      (pairName (shortAttribute 0x0c 0x31) (shortAttribute 0x13 0x32))
      (pairName (shortAttribute 0x0c 0x32) (shortAttribute 0x13 0x31)) :
        Metered Result Unit Bool).exec ⟨1000, ()⟩).1 = .ok true := by
    decide +kernel
  exact (name_equality Unicode.plain_correct).1 shortLimits ⟨4, 2⟩ _ _ ⟨1000, ()⟩ _ true
    (Prod.ext run rfl)

variable {sizeT sizeMax : Nat} {t : Unicode.Tables} {D : Type} {s s' : Budgeted D}
  {limits : Limits} {workspace : NameWorkspace} {a b : NameAttribute}

noncomputable def preparable (sizeT sizeMax : Nat) (t : Unicode.Tables) (a : NameAttribute) :
    Bool :=
  (keyOf sizeT sizeMax t a).isSome

/-- RDNs of different sizes, of one attribute each, or where the attributes of a type are all
    prepared, or all not prepared and as many on both sides. -/
def Unmixed (sizeT sizeMax : Nat) (t : Unicode.Tables) (left right : List NameAttribute) : Prop :=
  left.length ≠ right.length ∨ left.length = 1 ∨
    Pairing.Uniform (·.oid) (preparable sizeT sizeMax t) left right

theorem pairOf_comm : pairOf sizeT sizeMax t a b = pairOf sizeT sizeMax t b a := by
  unfold pairOf
  by_cases types : a.oid = b.oid
  · rw [if_neg (not_not.mpr types), if_neg (not_not.mpr types.symm)]
    cases keyOf sizeT sizeMax t a <;> cases keyOf sizeT sizeMax t b <;>
      simp only [eq_comm]
  · rw [if_pos types, if_pos (Ne.symm types)]

theorem pairOf_kinds (correct : t.Correct) :
    Pairing.Kinds (pairOf sizeT sizeMax t) (·.oid) (preparable sizeT sizeMax t) where
  apart _ _ types := if_pos types
  sure a b prepared prepared' := by
    obtain ⟨key, left⟩ := Option.isSome_iff_exists.mp prepared
    obtain ⟨key', right⟩ := Option.isSome_iff_exists.mp prepared'
    rw [pairOf, left, right]
    grind
  unsure a b types open_value := by
    have missing : keyOf sizeT sizeMax t a = none := by simpa [preparable] using open_value
    rw [pairOf, missing, if_neg (not_not.mpr types)]
    grind
  alike a b matching := by
    have classes := (Prod.mk.inj ((pairOf_matching correct).mp matching)).2
    unfold preparable
    cases left : keyOf sizeT sizeMax t a <;> cases right : keyOf sizeT sizeMax t b <;>
      rw [left, right] at classes <;> first | rfl | cases classes

variable {left right : List NameAttribute}

theorem firstFit_sizes (sizes : left.length ≠ right.length) :
    Pairing.firstFit (pairOf sizeT sizeMax t) left right = .mismatch := by
  rcases @Pairing.firstFit_cases _ (pairOf sizeT sizeMax t) (fun _ => false) right left
    (by simp) with ⟨outcome, _⟩ | ⟨_, _, _, same, _⟩
  · exact outcome
  · exact absurd same sizes

theorem firstFit_single :
    Pairing.firstFit (pairOf sizeT sizeMax t) [a] [b] = pairOf sizeT sizeMax t a b := by
  cases outcome : pairOf sizeT sizeMax t a b <;>
    simp [Pairing.firstFit, Pairing.pairLoop, Pairing.scan, outcome]

theorem Unmixed.symm (unmixed : Unmixed sizeT sizeMax t left right) :
    Unmixed sizeT sizeMax t right left := by
  rcases unmixed with different | single | uniform
  · exact .inl (Ne.symm different)
  · by_cases sizes : right.length = left.length
    · exact .inr (Or.inl (sizes ▸ single))
    · exact .inl sizes
  · exact .inr (Or.inr uniform.symm)

theorem firstFit_mismatch_back (correct : t.Correct) (unmixed : Unmixed sizeT sizeMax t left right)
    (outcome : Pairing.firstFit (pairOf sizeT sizeMax t) left right = .mismatch) :
    Pairing.firstFit (pairOf sizeT sizeMax t) right left = .mismatch := by
  by_cases sizes : left.length = right.length
  · rcases unmixed with different | single | uniform
    · exact absurd sizes different
    · obtain ⟨a, rfl⟩ := List.length_eq_one_iff.mp single
      obtain ⟨b, rfl⟩ := List.length_eq_one_iff.mp (sizes ▸ single)
      rw [firstFit_single] at outcome ⊢
      rwa [pairOf_comm]
    · exact Pairing.firstFit_mismatch_symm (pairOf_equivalence correct) (pairOf_kinds correct)
        uniform outcome
  · exact firstFit_sizes (Ne.symm sizes)

theorem rdnsCompare_mismatch_back (correct : t.Correct)
    (unmixed : ∀ both ∈ lefts.zip rights, Unmixed sizeT sizeMax t both.1 both.2)
    (outcome : rdnsCompare sizeT sizeMax t false false rights lefts = .mismatch) :
    rdnsCompare sizeT sizeMax t false false lefts rights = .mismatch := by
  rw [rdnsCompare_mismatch] at outcome ⊢
  intro all
  apply outcome
  clear outcome
  induction all with
  | nil => exact .nil
  | cons first _ ih =>
    rw [List.zip_cons_cons, List.forall_mem_cons] at unmixed
    exact .cons (fun back => first (firstFit_mismatch_back correct unmixed.1.symm back))
      (ih unmixed.2)

theorem rdnsCompare_sizes (sizes : lefts.length ≠ rights.length) :
    rdnsCompare sizeT sizeMax t false false lefts rights = .mismatch := by
  rw [rdnsCompare_mismatch]
  exact fun all => sizes all.length_eq

theorem rdnsCompare_matching_comm (correct : t.Correct) {lefts rights : List (List NameAttribute)} :
    rdnsCompare sizeT sizeMax t false false lefts rights = .matching ↔
      rdnsCompare sizeT sizeMax t false false rights lefts = .matching := by
  rw [rdnsCompare_equal correct, rdnsCompare_equal correct]
  exact ⟨fun equal => equal.symm correct, fun equal => equal.symm correct⟩

theorem rdnsCompare_comm (correct : t.Correct)
    (unmixed : ∀ both ∈ lefts.zip rights, Unmixed sizeT sizeMax t both.1 both.2) :
    rdnsCompare sizeT sizeMax t false false lefts rights =
      rdnsCompare sizeT sizeMax t false false rights lefts := by
  have unmixed' : ∀ both ∈ rights.zip lefts, Unmixed sizeT sizeMax t both.1 both.2 := by
    intro both member
    rw [← List.zip_swap, List.mem_map] at member
    obtain ⟨both', inside, rfl⟩ := member
    exact (unmixed both' inside).symm
  have matching := @rdnsCompare_matching_comm sizeT sizeMax t correct lefts rights
  have forth := rdnsCompare_mismatch_back correct unmixed
  have back := rdnsCompare_mismatch_back correct unmixed'
  revert matching forth back
  generalize rdnsCompare sizeT sizeMax t false false lefts rights = outcome
  generalize rdnsCompare sizeT sizeMax t false false rights lefts = outcome'
  cases outcome <;> cases outcome' <;> simp

/-- Both directions agree on a match and never contradict each other; where the RDNs are
    unmixed, or the names have different numbers of them, they have one outcome. -/
theorem name_outcomes (correct : t.Correct) (limits limits' : Limits)
    (workspace workspace' : NameWorkspace) (left right : Bytes) (s s' s₁ s₁' : Budgeted D)
    (r r' : Except Result Bool) (outcome outcome' : Comparison)
    (run : (nameEqual sizeT sizeMax t limits workspace left right).exec s = (r, s'))
    (run' : (nameEqual sizeT sizeMax t limits' workspace' right left).exec s₁ = (r', s₁'))
    (reports : Reports r outcome) (reports' : Reports r' outcome') :
    ∃ lefts rights, NameParses sizeT sizeMax left lefts ∧ NameParses sizeT sizeMax right rights ∧
        (outcome = .matching ↔ outcome' = .matching) ∧
        (lefts.length ≠ rights.length → outcome = .mismatch ∧ outcome' = .mismatch) ∧
        ((∀ both ∈ lefts.zip rights, Unmixed sizeT sizeMax t both.1 both.2) →
          outcome = outcome') := by
  obtain ⟨lefts, rights, first, second, compared⟩ := nameMatch_reports correct run reports
  have compared' := nameEqual_reports correct run' reports' second first
  subst compared compared'
  refine ⟨lefts, rights, first, second, rdnsCompare_matching_comm correct, ?_,
    rdnsCompare_comm correct⟩
  exact fun sizes => ⟨rdnsCompare_sizes sizes, rdnsCompare_sizes (Ne.symm sizes)⟩

def mixedName : Bytes := pairName (shortAttribute 0x0c 0x32) (shortAttribute 0x14 0x31)

def preparedName : Bytes := pairName (shortAttribute 0x0c 0x33) (shortAttribute 0x0c 0x34)

/-- A mismatch one way that stays undetermined the other way. -/
theorem name_outcomes_mixed :
    ((nameEqual 8 (2 ^ 64 - 1) Unicode.plainTables shortLimits ⟨4, 2⟩ mixedName preparedName :
        Metered Result Unit Bool).exec ⟨1000, ()⟩).1 = .ok false ∧
      ((nameEqual 8 (2 ^ 64 - 1) Unicode.plainTables shortLimits ⟨4, 2⟩ preparedName mixedName :
        Metered Result Unit Bool).exec ⟨1000, ()⟩).1 = .error .unsupported := by
  decide +kernel

/-- Two names of prepared attributes mismatch both ways. -/
theorem name_outcomes_prepared : ∃ lefts rights, NameParses 8 (2 ^ 64 - 1) preparedName lefts ∧
      NameParses 8 (2 ^ 64 - 1)
        (pairName (shortAttribute 0x0c 0x31) (shortAttribute 0x13 0x32)) rights ∧
        (Comparison.mismatch = .matching ↔ Comparison.mismatch = .matching) ∧
        (lefts.length ≠ rights.length →
          Comparison.mismatch = .mismatch ∧ Comparison.mismatch = .mismatch) ∧
        ((∀ both ∈ lefts.zip rights, Unmixed 8 (2 ^ 64 - 1) Unicode.plainTables both.1 both.2) →
          Comparison.mismatch = .mismatch) := by
  have forth : ((nameEqual 8 (2 ^ 64 - 1) Unicode.plainTables shortLimits ⟨4, 2⟩ preparedName
      (pairName (shortAttribute 0x0c 0x31) (shortAttribute 0x13 0x32)) :
        Metered Result Unit Bool).exec ⟨1000, ()⟩).1 = .ok false := by
    decide +kernel
  have back : ((nameEqual 8 (2 ^ 64 - 1) Unicode.plainTables shortLimits ⟨4, 2⟩
      (pairName (shortAttribute 0x0c 0x31) (shortAttribute 0x13 0x32)) preparedName :
        Metered Result Unit Bool).exec ⟨1000, ()⟩).1 = .ok false := by
    decide +kernel
  exact name_outcomes Unicode.plain_correct shortLimits shortLimits ⟨4, 2⟩ ⟨4, 2⟩ _ _ ⟨1000, ()⟩ _
    ⟨1000, ()⟩ _ _ _ _ _ (Prod.ext forth rfl) (Prod.ext back rfl) .mismatch .mismatch

end TinyCrypto.X509
