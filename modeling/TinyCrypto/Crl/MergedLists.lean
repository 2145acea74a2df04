import TinyCrypto.Crl.EntryLists
import TinyCrypto.X509.NameEquality

/-! # Base and delta

A lookup in a base and its delta answers what the list with the changes of the delta has for the
certificate.
-/

namespace TinyCrypto.Crl

open Library Library.Program Library.Metered
open Tlv
open X509 (Time reasonKnown)

def Twice (same : Bytes → Bytes → Prop) (query : Target) (list : List Revocation) : Prop :=
  ∃ a b, [a, b].Sublist list ∧ a.Matches same query ∧ b.Matches same query

def rows (list : List Revocation) : List ((Bytes × Bytes) × EntryMatch) :=
  list.flatMap fun r => r.issuers.map fun name => ((name, r.entry.serial), r.found)

def SameEntry (same : Bytes → Bytes → Prop) (left right : Bytes × Bytes) : Prop :=
  left.2 = right.2 ∧ same left.1 right.1

/-- The revocations of a base with the changes of its delta, where removeFromCRL removes. -/
noncomputable def mergedRows (same : Bytes → Bytes → Prop) (base delta : List Revocation) :
    List ((Bytes × Bytes) × EntryMatch) :=
  overlaid (SameEntry same) (fun found => found.reason = reasonRemove) (rows base) (rows delta)

inductive Answers (same : Bytes → Bytes → Prop) (query : Target) (base delta : List Revocation) :
    Except Result EntryMatch → Prop
  | invalid : Twice same query base ∨ Twice same query delta ∨
      (∃ r ∈ base, r.Matches same query ∧ r.info.reason = reasonRemove) →
        Answers same query base delta (.error .invalid)
  | found : ¬Twice same query base → ¬Twice same query delta →
      (∀ r ∈ base, r.Matches same query → r.info.reason ≠ reasonRemove) →
        Finds (SameEntry same) (mergedRows same base delta) (query.issuer, query.serial) v →
          Answers same query base delta (.ok (v.getD .zero))

section

variable {same : Bytes → Bytes → Prop} {query : Target} {list base delta : List Revocation}
  {r : Revocation} {found : EntryMatch}

theorem mem_rows {p : (Bytes × Bytes) × EntryMatch} :
    p ∈ rows list ↔ ∃ r ∈ list, p.1.1 ∈ r.issuers ∧ p.1.2 = r.entry.serial ∧ p.2 = r.found := by
  obtain ⟨⟨name, serial⟩, value⟩ := p
  simp only [rows, List.mem_flatMap, List.mem_map, Prod.mk.injEq]
  constructor
  · rintro ⟨r, within, name, named, ⟨rfl, rfl⟩, rfl⟩
    exact ⟨r, within, named, rfl, rfl⟩
  · rintro ⟨r, within, named, rfl, rfl⟩
    exact ⟨r, within, name, named, ⟨rfl, rfl⟩, rfl⟩

theorem rows_same {p : (Bytes × Bytes) × EntryMatch} (within : p ∈ rows list)
    (here : SameEntry same p.1 (query.issuer, query.serial)) :
    ∃ r ∈ list, r.Matches same query ∧ p.2 = r.found := by
  obtain ⟨r, member, named, serial, value⟩ := mem_rows.mp within
  exact ⟨r, member, ⟨serial ▸ here.1, p.1.1, named, here.2⟩, value⟩

theorem matches_rows (within : r ∈ list) (matches_ : r.Matches same query) :
    ∃ p ∈ rows list, SameEntry same p.1 (query.issuer, query.serial) ∧ p.2 = r.found := by
  obtain ⟨serial, name, named, equal⟩ := matches_
  exact ⟨((name, r.entry.serial), r.found), mem_rows.mpr ⟨r, within, named, rfl, rfl⟩, ⟨serial, equal⟩, rfl⟩

theorem twice_cons : Twice same query (r :: list) ↔
    (r.Matches same query ∧ ∃ b ∈ list, b.Matches same query) ∨ Twice same query list := by
  constructor
  · rintro ⟨a, b, both, first, second⟩
    cases both with
    | cons _ both => exact .inr ⟨a, b, both, first, second⟩
    | cons_cons _ rest => exact .inl ⟨first, b, List.singleton_sublist.mp rest, second⟩
  · rintro (⟨first, b, within, second⟩ | ⟨a, b, both, first, second⟩)
    · exact ⟨r, b, (List.singleton_sublist.mpr within).cons_cons r, first, second⟩
    · exact ⟨a, b, both.cons r, first, second⟩

theorem scanned_found (set : found.found ≠ 0) : scanned same query found list =
    open Classical in if ∃ r ∈ list, r.Matches same query then .error .invalid else .ok found := by
  classical
  induction list with
  | nil => rw [scanned, if_neg (by simp)]
  | cons r rest ih =>
    rw [scanned]
    by_cases matches_ : r.Matches same query
    · rw [if_pos matches_, if_pos set, if_pos ⟨r, List.mem_cons_self .., matches_⟩]
    · have later : (∃ b ∈ r :: rest, b.Matches same query) ↔ ∃ b ∈ rest, b.Matches same query := by
        simp only [List.mem_cons, or_and_right, exists_or, exists_eq_left, matches_, false_or]
      rw [if_neg matches_, ih]
      exact if_congr later.symm rfl rfl

theorem scanned_zero (query : Target) (list : List Revocation) :
    (Twice same query list ∧ scanned same query .zero list = .error .invalid) ∨
      (¬Twice same query list ∧ ∃ v : Option EntryMatch,
        scanned same query .zero list = .ok (v.getD .zero) ∧
        Finds (SameEntry same) (rows list) (query.issuer, query.serial) v ∧
        ∀ m, v = some m ↔ ∃ r ∈ list, r.Matches same query ∧ m = r.found) := by
  induction list with
  | nil =>
    refine .inr ⟨fun ⟨a, b, both, _⟩ => absurd (List.sublist_nil.mp both) (List.cons_ne_nil a [b]), none, rfl,
      fun p within => absurd within List.not_mem_nil, fun m => by simp⟩
  | cons r rest ih =>
    rw [twice_cons, scanned]
    by_cases matches_ : r.Matches same query
    · rw [if_pos matches_, if_neg (by simp [EntryMatch.zero]),
      scanned_found (by simp [Revocation.found, RevokedEntry.reported])]
      by_cases again : ∃ b ∈ rest, b.Matches same query
      · exact .inl ⟨.inl ⟨matches_, again⟩, if_pos again⟩
      · refine .inr ⟨?_, some r.found, if_neg again, ?_, ?_⟩
        · rintro (⟨-, later⟩ | ⟨a, b, both, first, -⟩)
          · exact again later
          · exact again ⟨a, both.subset (List.mem_cons_self ..), first⟩
        · obtain ⟨p, within, here, -⟩ := @matches_rows _ _ (r :: rest) _ (List.mem_cons_self ..) matches_
          refine ⟨⟨p, within, here⟩, fun q other there => ?_⟩
          obtain ⟨r', member, matches', value⟩ := rows_same other there
          rw [List.mem_cons] at member
          rcases member with rfl | later
          · exact value
          · exact absurd ⟨r', later, matches'⟩ again
        · intro m
          simp only [Option.some.injEq, List.mem_cons, or_and_right, exists_or, exists_eq_left]
          constructor
          · rintro rfl
            exact .inl ⟨matches_, rfl⟩
          · rintro (⟨-, rfl⟩ | ⟨b, within, other, -⟩)
            · rfl
            · exact absurd ⟨b, within, other⟩ again
    · rw [if_neg matches_]
      simp only [matches_, false_and, false_or, List.mem_cons, or_and_right, exists_or, exists_eq_left]
      rcases ih with refused | ⟨once, v, run, finds, value⟩
      · exact .inl refused
      · refine .inr ⟨once, v, run, ?_, value⟩
        have kept {p : (Bytes × Bytes) × EntryMatch} (within : p ∈ rows (r :: rest))
            (here : SameEntry same p.1 (query.issuer, query.serial)) : p ∈ rows rest := by
          obtain ⟨r', member, named, serial, same_⟩ := mem_rows.mp within
          rw [List.mem_cons] at member
          rcases member with rfl | later
          · exact absurd ⟨serial ▸ here.1, p.1.1, named, here.2⟩ matches_
          · exact mem_rows.mpr ⟨r', later, named, serial, same_⟩
        cases v with
        | none => exact fun p within here => finds p (kept within here) here
        | some m =>
          obtain ⟨⟨p, within, here⟩, only⟩ := finds
          refine ⟨⟨p, List.mem_append_right _ within, here⟩, fun q other there => only q (kept other there) there⟩

theorem combine_base {b : EntryMatch} {delta : Option EntryMatch} (found : b.found = 1)
    (removes : b.reason = reasonRemove) (flags : ∀ d, delta = some d → d.found = 0 ∨ d.found = 1) :
    combine b delta = .error .invalid := by
  unfold combine
  have admitted : (delta.all fun m => m.found = 0 || m.found = 1) = true := by
    cases delta with
    | none => rfl
    | some d => simpa using flags d rfl
  rw [if_neg (by simp [found, admitted]), if_pos (by simp [found, removes])]

theorem combine_overlay {b d : Option EntryMatch} (found : ∀ m, b = some m → m.found = 1)
    (known : ∀ m, b = some m → reasonKnown m.reason = true ∧ m.reason ≠ reasonRemove)
    (found' : ∀ m, d = some m → m.found = 1) (known' : ∀ m, d = some m → reasonKnown m.reason = true) :
    combine (b.getD .zero) (some (d.getD .zero)) =
      .ok ((overlay (fun m => m.reason = reasonRemove) b d).getD .zero) := by
  have removable : reasonKnown reasonRemove = true := by decide
  cases b with
  | none =>
    cases d with
    | none => rfl
    | some d =>
      have set := found' d rfl
      have reason := known' d rfl
      by_cases removes : d.reason = reasonRemove
      · simp [combine, overlay, Option.filter, EntryMatch.zero, set, removes, removable]
      · simp [combine, overlay, Option.filter, EntryMatch.zero, set, reason, removes]
  | some b =>
    have set := found b rfl
    obtain ⟨reason, stays⟩ := known b rfl
    cases d with
    | none => simp [combine, overlay, Option.filter, EntryMatch.zero, set, reason, stays]
    | some d =>
      have set' := found' d rfl
      have reason' := known' d rfl
      by_cases removes : d.reason = reasonRemove
      · simp [combine, overlay, Option.filter, set, set', reason, stays, removes, removable]
      · simp [combine, overlay, Option.filter, set, set', reason, reason', stays, removes]

theorem combine_alone {b : Option EntryMatch} (found : ∀ m, b = some m → m.found = 1)
    (known : ∀ m, b = some m → reasonKnown m.reason = true ∧ m.reason ≠ reasonRemove) :
    combine (b.getD .zero) none = .ok (b.getD .zero) := by
  cases b with
  | none => rfl
  | some b =>
    have set := found b rfl
    obtain ⟨reason, stays⟩ := known b rfl
    simp [combine, Option.filter, set, reason, stays]

variable {c : EntryReaders} {crl : Extensions} {version : Nat} {reader : Reader}

theorem Entries.known {name : Bytes} {before entries : List ListedEntry}
    (read : Entries c crl version reader entries) :
    ∀ r ∈ revocations name before entries, reasonKnown r.info.reason = true := by
  induction read generalizing before with
  | ended => exact fun r within => absurd within List.not_mem_nil
  | entry _ own _ ih => exact List.forall_mem_cons.mpr ⟨own.known, ih⟩

theorem SameEntry.symm {left right : Bytes × Bytes} (compares : ComparesIssuers c same)
    (here : SameEntry same left right) : SameEntry same right left :=
  ⟨here.1.symm, compares.symm here.2⟩

theorem SameEntry.trans {left middle right : Bytes × Bytes} (compares : ComparesIssuers c same)
    (first : SameEntry same left middle) (second : SameEntry same middle right) :
    SameEntry same left right :=
  ⟨first.1.trans second.1, compares.trans first.2 second.2⟩

theorem scanned_match {v : Option EntryMatch} (known : ∀ r ∈ list, reasonKnown r.info.reason = true)
    (value : ∀ m, v = some m ↔ ∃ r ∈ list, r.Matches same query ∧ m = r.found) :
    ∀ m, v = some m → m.found = 1 ∧ reasonKnown m.reason = true ∧
      ∃ r ∈ list, r.Matches same query ∧ m = r.found := by
  intro m set
  obtain ⟨r, within, matches_, rfl⟩ := (value m).mp set
  exact ⟨rfl, known r within, r, within, matches_, rfl⟩

theorem flag_of_match {v : Option EntryMatch} (found : ∀ m, v = some m → m.found = 1) :
    (v.getD .zero).found = 0 ∨ (v.getD .zero).found = 1 := by
  cases v with
  | none => exact .inl rfl
  | some m => exact .inr (found m rfl)

end

def ListsDelta (c : EntryReaders) (delta : Option (RevocationList × Extensions))
    (entries : List ListedEntry) : Prop :=
  delta.elim (entries = []) fun delta => Lists c delta.1 delta.2 entries

/-- A lookup in a base and its delta, whose entries are read and compared with verdicts, answers
    what the merged list has. The work only decides whether it does. -/
theorem crl_lookup_merged (c : EntryReaders) (same : Bytes → Bytes → Prop) (compares : ComparesIssuers c same)
    (base : RevocationList × Extensions) (delta : Option (RevocationList × Extensions)) (query : Target)
    (asked : query.serial ≠ [] ∧ query.issuer ≠ []) (bases deltas : List ListedEntry)
    (lists : Lists c base.1 base.2 bases) (lists' : ListsDelta c delta deltas)
    (determined : Determined c same (revocations base.1.issuer [] bases) query)
    (determined' : Determined c same (revocations (delta.elim [] (·.1.issuer)) [] deltas) query) :
    ∃ answer, Answers same query (revocations base.1.issuer [] bases)
        (revocations (delta.elim [] (·.1.issuer)) [] deltas) answer ∧
      Decides .limit (crlLookup c base delta query) () answer := by
  have find := crlFind_decides compares asked lists determined
  obtain ⟨reader, -, read⟩ := lists.entries
  have known := @Entries.known c base.2 base.1.version reader base.1.issuer [] bases read
  unfold crlLookup
  obtain ⟨twice, refused⟩ | ⟨once, b, run, finds, value⟩ :=
    @scanned_zero same query (revocations base.1.issuer [] bases)
  · rw [refused] at find
    exact ⟨_, .invalid (.inl twice), find.stop⟩
  rw [run] at find
  have here := scanned_match known value
  have allowed : (∀ r ∈ revocations base.1.issuer [] bases, r.Matches same query → r.info.reason ≠ reasonRemove) →
      ∀ m, b = some m → reasonKnown m.reason = true ∧ m.reason ≠ reasonRemove := by
    intro stays m set
    obtain ⟨-, reason, r, within, matches_, rfl⟩ := here m set
    exact ⟨reason, stays r within matches_⟩
  cases delta with
  | none =>
    obtain rfl : deltas = [] := lists'
    by_cases stays : ∀ r ∈ revocations base.1.issuer [] bases, r.Matches same query → r.info.reason ≠ reasonRemove
    · have nothing : Finds (SameEntry same) (rows []) (query.issuer, query.serial) none :=
        fun p within => absurd within List.not_mem_nil
      have merged : Finds (SameEntry same) (mergedRows same _ []) _
          (overlay (fun m : EntryMatch => m.reason = reasonRemove) b none) :=
        finds.overlaid (SameEntry.symm compares) (SameEntry.trans compares) nothing
      have combined := combine_alone (fun m set => (here m set).1) (allowed stays)
      have empty : ¬Twice same query [] := fun ⟨x, y, both, _⟩ =>
        absurd (List.sublist_nil.mp both) (List.cons_ne_nil x [y])
      exact ⟨_, .found once empty stays merged, find.bind (combined ▸ decides_lift)⟩
    · push Not at stays
      obtain ⟨r, within, matches_, removes⟩ := stays
      obtain rfl := (value r.found).mpr ⟨r, within, matches_, rfl⟩
      have combined : combine r.found none = .error .invalid := combine_base rfl removes nofun
      exact ⟨_, .invalid (.inr (.inr ⟨r, within, matches_, removes⟩)), find.bind (combined ▸ decides_lift)⟩
  | some delta =>
    have find' := crlFind_decides compares asked lists' determined'
    obtain ⟨reader', -, read'⟩ := lists'.entries
    have known' := @Entries.known c delta.2 delta.1.version reader' delta.1.issuer [] deltas read'
    obtain ⟨twice', refused'⟩ | ⟨once', d, run', finds', value'⟩ :=
      @scanned_zero same query (revocations delta.1.issuer [] deltas)
    · rw [refused'] at find'
      exact ⟨_, .invalid (.inr (.inl twice')), find.bind find'.stop⟩
    rw [run'] at find'
    have here' := scanned_match known' value'
    by_cases stays : ∀ r ∈ revocations base.1.issuer [] bases, r.Matches same query → r.info.reason ≠ reasonRemove
    · have merged : Finds (SameEntry same) (mergedRows same _ _) _
          (overlay (fun m : EntryMatch => m.reason = reasonRemove) b d) :=
        finds.overlaid (SameEntry.symm compares) (SameEntry.trans compares) finds'
      have combined := combine_overlay (fun m set => (here m set).1) (allowed stays)
        (fun m set => (here' m set).1) fun m set => (here' m set).2.1
      exact ⟨_, .found once once' stays merged, find.bind (find'.bind (combined ▸ decides_lift))⟩
    · push Not at stays
      obtain ⟨r, within, matches_, removes⟩ := stays
      obtain rfl := (value r.found).mpr ⟨r, within, matches_, rfl⟩
      have combined : combine r.found (some (d.getD .zero)) = .error .invalid :=
        combine_base rfl removes fun m set => Option.some.inj set ▸ flag_of_match fun m set => (here' m set).1
      exact ⟨_, .invalid (.inr (.inr ⟨r, within, matches_, removes⟩)),
        find.bind (find'.bind (combined ▸ decides_lift))⟩

theorem read_bytes {sizeT : Nat} {limits : Limits} {input : Bytes} {e : Element}
    (found : read sizeT limits input = .ok e) : e.encoded ≠ [] := by
  unfold Tlv.read at found
  split at found
  · cases found
  split at found
  · cases found
  rename_i header headed
  have pos := Tlv.headerRead_positive headed
  split at found
  · cases found
  · cases found
    cases input with
    | nil => cases headed
    | cons first rest =>
      rw [ne_eq, List.take_eq_nil_iff]
      rintro (none | empty)
      · omega
      · cases empty

/-- Readers of entries whose only extension is a certificateIssuer of one name. -/
def directReaders (equal : Bytes → Bytes → EntryProgram Bool) : EntryReaders where
  sizeT := 8
  sizeMax := 2 ^ 64 - 1
  limits := X509.shortLimits
  treeRead input := lift (read 8 X509.shortLimits input)
  infoRead encoded :=
    if encoded = [] then pure ⟨[], false, ⟨0, 0, 0, 0, 0, 0⟩, 0, 0, 0⟩
    else pure ⟨encoded.drop 16, false, ⟨0, 0, 0, 0, 0, 0⟩, 0, entryIssuer, entryIssuer⟩
  nameEqual := equal
  treeNameEqual := equal
  treeRead_bytes given := read_bytes (gives_lift.mp given).1

section

variable {t : Unicode.Tables}

/-- Names of the same RDNs. -/
def SameName (t : Unicode.Tables) (left right : Bytes) : Prop :=
  ∃ lefts rights, X509.NameParses 8 (2 ^ 64 - 1) left lefts ∧
    X509.NameParses 8 (2 ^ 64 - 1) right rights ∧ X509.NamesEqual 8 (2 ^ 64 - 1) t lefts rights

/-- `TC_X509_name_equal` compares the issuers. -/
theorem compares_of_nameEqual (correct : t.Correct) (limits : Limits)
    (workspace : X509.NameWorkspace) : ComparesIssuers
      (directReaders (X509.nameEqual 8 (2 ^ 64 - 1) t limits workspace)) (SameName t) := by
  have verdict {left right : Bytes} {b : Bool}
      (decides : Decides .limit (X509.nameEqual 8 (2 ^ 64 - 1) t limits workspace left right :
        EntryProgram Bool) () (.ok b)) : b = true ↔ SameName t left right := by
    obtain ⟨_, _, given⟩ := decides_gives decides
    obtain ⟨lefts, rights, first, second, equal⟩ := X509.nameEqual_gives correct given
    refine equal.trans ⟨fun equal => ⟨lefts, rights, first, second, equal⟩, ?_⟩
    rintro ⟨lefts', rights', first', second', equal⟩
    rwa [first.unique first', second.unique second']
  refine ⟨?_, ?_, verdict, verdict⟩
  · rintro left right ⟨lefts, rights, first, second, equal⟩
    exact ⟨rights, lefts, second, first, X509.NamesEqual.symm correct equal⟩
  · rintro left middle right ⟨lefts, middles, first, second, equal⟩
      ⟨middles', rights, second', third, equal'⟩
    obtain rfl := second.unique second'
    exact ⟨lefts, rights, first, third, X509.NamesEqual.trans correct equal equal'⟩

end

def singleName (tag character : UInt8) : Bytes := [0x30, 12, 0x31, 10] ++ X509.shortAttribute tag character

def entryFields (serial : UInt8) : Bytes :=
  [2, 1, serial, 0x17, 13, 0x32, 0x35, 0x30, 0x31, 0x30, 0x31, 0x30, 0x30, 0x30, 0x30, 0x30, 0x30, 0x5a]

def listOf (revoked issuer : Bytes) (present : Nat) : RevocationList × Extensions :=
  (⟨[], [], revoked, issuer, 2, none⟩,
    ⟨⟨.ok, present, present, false, ⟨false, false, false, false, 0⟩, ⟨0, 0, 0, 0, 0, 0⟩, 0, ⟨0, 0, 0, 0, 0, 0⟩⟩,
      true⟩)

/-- Names that cannot be prepared leave the lookup open, whatever the list has. -/
theorem crl_lookup_undetermined :
    ((crlLookup (directReaders (X509.nameEqual 8 (2 ^ 64 - 1) Unicode.plainTables X509.shortLimits ⟨4, 2⟩))
      (listOf ([0x30, 20, 0x30, 18] ++ entryFields 1) (singleName 0x14 0x31) 0) none ⟨[1], singleName 0x14 0x32⟩).exec ⟨1000, ()⟩).1 =
        .error .unsupported := by
  decide +kernel

/-- An extension certificateIssuer with a directory name of 14 octets. -/
def issuerExtension (name : Bytes) : Bytes :=
  [0x30, 30, 0x30, 28, 6, 3, 0x55, 0x1d, 0x1d, 1, 1, 0xff, 4, 18, 0x30, 16, 0xa4, 14] ++ name

def listName : Bytes := singleName 0x0c 0x31
def otherName : Bytes := singleName 0x0c 0x32

/-- The first entry names its issuer, and the second inherits it. -/
def inheritedList (present : Nat) : RevocationList × Extensions :=
  listOf ([0x30, 72, 0x30, 50] ++ entryFields 2 ++ issuerExtension otherName ++ [0x30, 18] ++ entryFields 1)
    listName (extDistribution ||| present)

def inheritedEntries : List ListedEntry :=
  [⟨⟨[2], false, ⟨2025, 1, 1, 0, 0, 0⟩, issuerExtension otherName⟩,
      ⟨[0xa4, 14] ++ otherName, false, ⟨0, 0, 0, 0, 0, 0⟩, 0, entryIssuer, entryIssuer⟩, [otherName]⟩,
    ⟨⟨[1], false, ⟨2025, 1, 1, 0, 0, 0⟩, []⟩, ⟨[], false, ⟨0, 0, 0, 0, 0, 0⟩, 0, 0, 0⟩, []⟩]

def byBytes : EntryReaders := directReaders fun left right => pure (left = right)

theorem inheritedList_lists {present : Nat} (known : present = 0 ∨ present = extDelta) :
    Lists byBytes (inheritedList present).1 (inheritedList present).2 inheritedEntries where
  plain := rfl
  version := .inr rfl
  issuer := List.cons_ne_nil _ _
  policy := by rcases known with rfl | rfl <;> decide
  entries := by
    refine ⟨⟨(inheritedList present).1.revoked.drop 2, 0⟩, decides_free fun _ => rfl, ?_⟩
    refine @Entries.entry _ _ _ _ ⟨[0x30, 18] ++ entryFields 1, 1⟩ _ _ (decides_free fun _ => rfl)
      ⟨decides_free fun _ => rfl, by rcases known with rfl | rfl <;> decide, rfl, fun _ => ?_⟩ ?_
    · exact ⟨by decide, by decide, ⟨[0xa4, 14] ++ otherName, 0⟩, rfl,
        @Names.name _ _ ⟨⟨14, 4, [0xa4], 2, 2, true⟩, [0xa4, 14] ++ otherName, otherName⟩ ⟨[], 1⟩ _
          (decides_free fun _ => rfl) rfl (.ended rfl)⟩
    · exact @Entries.entry _ _ _ _ ⟨[], 2⟩ _ _ (decides_free fun _ => rfl)
        ⟨decides_free fun _ => rfl, by rcases known with rfl | rfl <;> decide, rfl, fun carries => by cases carries⟩
        (.ended rfl)

theorem inherited_determined (query : Target) :
    Determined byBytes (· = ·) (revocations listName [] inheritedEntries) query :=
  fun r _ _ _ name _ _ _ => ⟨decide (name = query.issuer), by unfold Revocation.compare; split <;> exact decides_pure⟩

/-- An entry of the base that the delta has anew, under an issuer that it inherits. -/
theorem crl_lookup_merged_single : ∃ answer, Answers (· = ·) ⟨[1], otherName⟩
        (revocations listName [] inheritedEntries) (revocations listName [] inheritedEntries) answer ∧
      Decides .limit (crlLookup byBytes (inheritedList 0) (some (inheritedList extDelta)) ⟨[1], otherName⟩) ()
        answer := by
  have equal {left right : Bytes} {b : Bool} (decided : Decides .limit
      (pure (left = right : Bool) : EntryProgram Bool) () (.ok b)) : b = true ↔ left = right := by
    cases Decides.unique decided decides_pure
    exact decide_eq_true_iff
  exact crl_lookup_merged byBytes (· = ·) ⟨Eq.symm, Eq.trans, equal, equal⟩ (inheritedList 0)
    (some (inheritedList extDelta)) ⟨[1], otherName⟩ (by decide) inheritedEntries inheritedEntries
    (inheritedList_lists (.inl rfl)) (inheritedList_lists (.inr rfl)) (inherited_determined _)
    (inherited_determined _)

end TinyCrypto.Crl
