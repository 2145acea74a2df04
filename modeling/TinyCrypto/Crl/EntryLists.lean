import TinyCrypto.Crl.Entries
import TinyCrypto.Library.Chains

/-! # Lists of revoked entries

What the entries of a CRL are, with the names that each of them is issued under, and how the
search through them ends.
-/

namespace TinyCrypto.Crl

open Library Library.Program Library.Metered
open Tlv
open X509 (Time timeValue reasonKnown)

/-- An entry, what its extensions say, and the directory names of its certificateIssuer. -/
structure ListedEntry where
  entry : CrlEntry
  info : EntryInfo
  names : List Bytes

def ListedEntry.carries (e : ListedEntry) : Bool := e.info.has entryIssuer

/-- An entry under the names that issued it, from a certificateIssuer or from the CRL. -/
structure Revocation where
  entry : CrlEntry
  info : EntryInfo
  carried : Bool
  issuers : List Bytes

/-- The issuers of the last of some entries: the certificateIssuer of the nearest entry that
    carries one, else the issuer of the CRL. -/
def standing (issuer : Bytes) (entries : List ListedEntry) : Bool × List Bytes :=
  match (entries.filter ListedEntry.carries).getLast? with
  | some e => (true, e.names)
  | none => (false, [issuer])

def revocations (issuer : Bytes) : (before : List ListedEntry) → List ListedEntry → List Revocation
  | _, [] => []
  | before, e :: rest =>
    ⟨e.entry, e.info, (standing issuer (before ++ [e])).1, (standing issuer (before ++ [e])).2⟩ ::
      revocations issuer (before ++ [e]) rest

def Revocation.found (r : Revocation) : EntryMatch :=
  RevokedEntry.reported ⟨r.entry, r.info, ⟨[], []⟩⟩

def Revocation.Matches (same : Bytes → Bytes → Prop) (r : Revocation) (query : Target) : Prop :=
  r.entry.serial = query.serial ∧ ∃ name ∈ r.issuers, same name query.issuer

theorem standing_snoc (issuer : Bytes) (before : List ListedEntry) (e : ListedEntry) :
    standing issuer (before ++ [e]) =
      if e.carries then (true, e.names) else standing issuer before := by
  unfold standing
  rw [List.filter_append]
  by_cases carries : e.carries = true
  · rw [List.filter_cons_of_pos carries, List.filter_nil, List.getLast?_append, if_pos carries]
    rfl
  · rw [List.filter_cons_of_neg carries, List.filter_nil, List.append_nil, if_neg carries]

section

variable (c : EntryReaders)

inductive Names : Reader → List Bytes → Prop
  | ended : reader.rest = [] → Names reader []
  | name : Decides .limit (treeNext c reader) () (.ok (element, after)) →
      element.tagIs directoryName = true → Names after names → Names reader (element.value :: names)
  | other : Decides .limit (treeNext c reader) () (.ok (element, after)) →
      element.tagIs directoryName = false → Names after names → Names reader names

structure ListedEntry.Read (crl : Extensions) (e : ListedEntry) : Prop where
  info : Decides .limit (c.infoRead e.entry.extensions) () (.ok e.info)
  policy : entryPolicy crl e.info = .ok
  known : reasonKnown e.info.reason = true
  names : e.carries = true → e.info.issuer ≠ [] ∧ e.names ≠ [] ∧
    ∃ reader, readerInit c.limits e.info.issuer = .ok reader ∧ Names c reader e.names

inductive Entries (crl : Extensions) (version : Nat) : Reader → List ListedEntry → Prop
  | ended : reader.rest = [] → Entries crl version reader []
  | entry {e : ListedEntry} : Decides .limit (entryNext c version reader) () (.ok (e.entry, after)) →
      e.Read c crl → Entries crl version after rest → Entries crl version reader (e :: rest)

structure Lists (crl : RevocationList) (extensions : Extensions) (entries : List ListedEntry) : Prop where
  plain : crl.prepared = none
  version : crl.version = 1 ∨ crl.version = 2
  issuer : crl.issuer ≠ []
  policy : extensionPolicy extensions.toRecord = .ok
  entries : ∃ reader, Decides .limit (entriesInit c crl.revoked) () (.ok reader) ∧
    Entries c extensions crl.version reader entries

def Revocation.compare (r : Revocation) (name : Bytes) (query : Target) : EntryProgram Bool :=
  if r.carried then c.treeNameEqual name query.issuer else c.nameEqual name query.issuer

/-- Each issuer of an entry with the serial is compared with a verdict, up to one that is the
    same. -/
def Determined (same : Bytes → Bytes → Prop) (list : List Revocation) (query : Target) : Prop :=
  ∀ r ∈ list, r.entry.serial = query.serial → ∀ before name after, r.issuers = before ++ name :: after →
    (∀ n ∈ before, ¬same n query.issuer) → ∃ b, Decides .limit (r.compare c name query) () (.ok b)

structure ComparesIssuers (same : Bytes → Bytes → Prop) : Prop where
  symm : ∀ {left right}, same left right → same right left
  trans : ∀ {left middle right}, same left middle → same middle right → same left right
  equal : ∀ {left right b}, Decides .limit (c.nameEqual left right) () (.ok b) →
    (b = true ↔ same left right)
  treeEqual : ∀ {left right b}, Decides .limit (c.treeNameEqual left right) () (.ok b) →
    (b = true ↔ same left right)

end

section

variable {c : EntryReaders} {reader after : Reader} {element : Element} {names : List Bytes}
  {same : Bytes → Bytes → Prop} {query : Target} {crl : Extensions} {version : Nat}

theorem decides_gives {A : Type} {m : EntryProgram A} {a : A} (decides : Decides .limit m () (.ok a)) :
    ∃ s s', Gives m s a s' := by
  obtain ⟨cost, completes⟩ := decides.reaches
  obtain ⟨left, run, -⟩ := completes cost le_rfl
  exact ⟨_, _, run⟩

theorem treeNext_shorter {s s' : Budgeted Unit} (given : Gives (treeNext c reader) s (element, after) s') :
    after.rest.length < reader.rest.length := by
  unfold treeNext at given
  split at given
  · exact absurd given gives_throw
  rename_i more
  split at given
  · exact absurd given gives_throw
  simp only [gives_bind, gives_pure, Prod.mk.injEq] at given
  obtain ⟨e, _, read, ⟨-, rfl⟩, -⟩ := given
  have bytes := List.length_pos_iff.mpr (c.treeRead_bytes read)
  have rest := List.length_pos_iff.mpr more
  rw [List.length_drop]
  omega

theorem shorter_passes {passes : Nat} (shorter : after.rest.length < reader.rest.length)
    (enough : reader.rest.length ≤ passes) :
    reader.rest ≠ [] ∧ ∃ fewer, passes = fewer + 1 ∧ after.rest.length ≤ fewer :=
  ⟨List.ne_nil_of_length_pos (by omega), passes - 1, by omega, by omega⟩

theorem integerContents_ne {contents : Bytes} (accepted : integerContents contents = true) :
    contents ≠ [] := by
  rintro rfl
  cases accepted

theorem entryNext_gives {entry : CrlEntry} {s s' : Budgeted Unit}
    (given : Gives (entryNext c version reader) s (entry, after) s') :
    entry.serial ≠ [] ∧ after.rest.length < reader.rest.length := by
  simp only [entryNext, gives_bind, gives_lift] at given
  obtain ⟨⟨element, next⟩, _, first, fields, _, -, ⟨number, fields'⟩, _, -, ⟨serial, negative⟩, _,
    ⟨integer, -⟩, ⟨date, fields''⟩, _, -, given⟩ := given
  split at given
  · exact absurd given gives_throw
  simp only [gives_bind, gives_pure, Prod.mk.injEq] at given
  obtain ⟨extensions, _, -, ⟨rfl, rfl⟩, -⟩ := given
  refine ⟨?_, treeNext_shorter first⟩
  unfold derInteger at integer
  split at integer
  · cases integer
  split at integer
  · rename_i accepted
    cases integer
    exact integerContents_ne accepted
  · cases integer

theorem namesLoop_decides {test : Bytes → EntryProgram Bool} {P : Bytes → Prop} {passes : Nat}
    (read : Names c reader names) (enough : reader.rest.length ≤ passes)
    (tested : ∀ before name after, names = before ++ name :: after → (∀ n ∈ before, ¬P n) →
      ∃ b, Decides .limit (test name) () (.ok b) ∧ (b = true ↔ P name)) :
    ∃ b, Decides .limit (namesLoop c test passes reader) () (.ok b) ∧
      (b = true ↔ ∃ name ∈ names, P name) := by
  induction read generalizing passes with
  | ended ended =>
    refine ⟨false, ?_, by simp⟩
    cases passes with
    | zero => exact decides_pure
    | succ passes =>
      rw [namesLoop, if_pos ended]
      exact decides_pure
  | name next tagged read ih =>
    obtain ⟨s, s', given⟩ := decides_gives next
    obtain ⟨more, passes, rfl, fewer⟩ := shorter_passes (treeNext_shorter given) enough
    rw [namesLoop, if_neg more]
    obtain ⟨b, verdict, says_⟩ := tested [] _ _ rfl fun _ within => absurd within List.not_mem_nil
    cases b with
    | true =>
      refine ⟨true, next.bind ?_, by simpa using .inl (says_.mp rfl)⟩
      dsimp only
      rw [if_pos tagged]
      exact verdict.bind decides_pure
    | false =>
      have differs : ¬P _ := fun holds => absurd (says_.mpr holds) Bool.false_ne_true
      obtain ⟨b, rest, found⟩ := @ih passes fewer fun before name after split earlier =>
        tested (_ :: before) name after (by rw [split]; rfl)
          (List.forall_mem_cons.mpr ⟨differs, earlier⟩)
      refine ⟨b, next.bind ?_, by rw [found]; simp [differs]⟩
      dsimp only
      rw [if_pos tagged]
      exact verdict.bind rest
  | other next tagged read ih =>
    obtain ⟨s, s', given⟩ := decides_gives next
    obtain ⟨more, passes, rfl, fewer⟩ := shorter_passes (treeNext_shorter given) enough
    rw [namesLoop, if_neg more]
    obtain ⟨b, rest, found⟩ := @ih passes fewer tested
    refine ⟨b, next.bind ?_, found⟩
    dsimp only
    rw [if_neg (by rw [tagged]; exact Bool.false_ne_true)]
    exact rest

def Holds (c : EntryReaders) (issuer : EntryIssuer) (names : Bool × List Bytes) : Prop :=
  if names.1 then issuer.names ≠ [] ∧
    ∃ reader, readerInit c.limits issuer.names = .ok reader ∧ Names c reader names.2
  else issuer.names = [] ∧ names.2 = [issuer.name]

theorem readerInit_rest {limits : Limits} {input : Bytes} (opened : readerInit limits input = .ok reader) :
    reader.rest = input := by
  unfold readerInit at opened
  split at opened
  · cases opened
  · cases opened
    rfl

theorem entryResolve_decides {e : ListedEntry} {issuer : EntryIssuer} {names : Bool × List Bytes}
    (read : e.Read c crl) (holds : Holds c issuer names) :
    ∃ issuer', Decides .limit (entryResolve c e.entry crl issuer) () (.ok ⟨e.entry, e.info, issuer'⟩) ∧
      Holds c issuer' (if e.carries then (true, e.names) else names) := by
  unfold entryResolve
  cases carries : e.carries with
  | false =>
    refine ⟨issuer, read.info.bind ?_, holds⟩
    have none : ¬e.info.has entryIssuer = true := Bool.eq_false_iff.mp carries
    rw [if_neg (not_not.mpr read.policy), if_neg none]
    exact decides_pure
  | true =>
    obtain ⟨present, named, reader, opened, listed⟩ := read.names carries
    refine ⟨⟨[], e.info.issuer⟩, read.info.bind ?_, present, reader, opened, listed⟩
    have some : e.info.has entryIssuer = true := carries
    rw [if_neg (not_not.mpr read.policy), if_pos some]
    obtain ⟨b, found, says_⟩ := @namesLoop_decides c reader e.names
      (fun name => (none : Option Bytes).elim (pure true) (c.treeNameEqual name)) (fun _ => True)
      e.info.issuer.length listed (by rw [readerInit_rest opened])
      fun before name after split earlier => ⟨true, decides_pure, by simp⟩
    have some_ : b = true := by
      obtain ⟨name, within⟩ := List.exists_mem_of_ne_nil _ named
      exact says_.mpr ⟨name, within, trivial⟩
    subst some_
    have directory : Decides .limit (issuerDirectoryName c e.info.issuer none) () (.ok true) := by
      unfold issuerDirectoryName
      exact Decides.bind (by rw [opened]; exact decides_pure) found
    exact directory.bind decides_pure

theorem queryMatches_decides {e : RevokedEntry} {r : Revocation} (compares : ComparesIssuers c same)
    (holds : Holds c e.issuer (r.carried, r.issuers)) (same_ : e.entry = r.entry)
    (serial : e.entry.serial ≠ []) (query_ : query.serial ≠ [])
    (determined : Determined c same [r] query) :
    ∃ b, Decides .limit (queryMatches c e query) () (.ok b) ∧ (b = true ↔ r.Matches same query) := by
  unfold queryMatches
  rw [if_neg (by simp [serial, query_])]
  by_cases equal : e.entry.serial = query.serial
  · have verdicts := determined r (List.mem_singleton_self r) (same_ ▸ equal)
    unfold Holds at holds
    have matches_ : r.Matches same query ↔ ∃ name ∈ r.issuers, same name query.issuer :=
      and_iff_right (same_ ▸ equal)
    rw [matches_]
    cases carried : r.carried with
    | false =>
      rw [carried, if_neg Bool.false_ne_true] at holds
      obtain ⟨none, issuers⟩ := holds
      dsimp only at issuers
      obtain ⟨b, verdict⟩ := verdicts [] _ [] issuers fun _ within => absurd within List.not_mem_nil
      rw [Revocation.compare, carried, if_neg Bool.false_ne_true] at verdict
      refine ⟨b, decides_charge.bind ?_, by rw [compares.equal verdict, issuers]; simp⟩
      rw [if_neg (not_not.mpr equal), if_pos none]
      exact verdict
    | true =>
      rw [carried, if_pos rfl] at holds
      obtain ⟨present, reader, opened, listed⟩ := holds
      obtain ⟨b, found, says_⟩ := @namesLoop_decides c reader r.issuers
        (fun name => (some query.issuer).elim (pure true) (c.treeNameEqual name))
        (fun name => same name query.issuer) e.issuer.names.length listed (by rw [readerInit_rest opened])
        fun before name after split earlier => by
          obtain ⟨b, verdict⟩ := verdicts before name after split earlier
          rw [Revocation.compare, carried, if_pos rfl] at verdict
          exact ⟨b, verdict, compares.treeEqual verdict⟩
      refine ⟨b, decides_charge.bind ?_, says_⟩
      rw [if_neg (not_not.mpr equal), if_neg present]
      unfold issuerDirectoryName
      exact Decides.bind (by rw [opened]; exact decides_pure) found
  · refine ⟨false, decides_charge.bind ?_, ?_⟩
    · rw [if_pos equal]
      exact decides_pure
    · exact ⟨nofun, fun both => absurd (same_ ▸ both.1) equal⟩

open Classical in
/-- The result of going through a list with the match that was found before. -/
noncomputable def scanned (same : Bytes → Bytes → Prop) (query : Target) :
    EntryMatch → List Revocation → Except Result EntryMatch
  | found, [] => .ok found
  | found, r :: rest =>
    if r.Matches same query then
      if found.found ≠ 0 then .error .invalid else scanned same query r.found rest
    else scanned same query found rest

theorem Determined.split {r : Revocation} {rest : List Revocation} (determined : Determined c same (r :: rest) query) :
    Determined c same [r] query ∧ Determined c same rest query := by
  unfold Determined at determined ⊢
  rw [List.forall_mem_cons] at determined
  exact ⟨List.forall_mem_singleton.mpr determined.1, determined.2⟩

theorem findLoop_decides {entries before : List ListedEntry} {passes : Nat} {issuer : EntryIssuer}
    {name : Bytes} {found : EntryMatch} (compares : ComparesIssuers c same) (query_ : query.serial ≠ [])
    (read : Entries c crl version reader entries) (enough : reader.rest.length ≤ passes)
    (holds : Holds c issuer (standing name before))
    (determined : Determined c same (revocations name before entries) query) :
    Decides .limit (findLoop c crl version query passes reader issuer found) ()
      (scanned same query found (revocations name before entries)) := by
  induction read generalizing passes before issuer found with
  | ended ended =>
    cases passes with
    | zero => exact decides_pure
    | succ passes =>
      rw [findLoop, if_pos ended]
      exact decides_pure
  | @entry reader after rest e next own read ih =>
    obtain ⟨s, s', given⟩ := decides_gives next
    obtain ⟨serial, shorter⟩ := entryNext_gives given
    obtain ⟨more, passes, rfl, fewer⟩ := shorter_passes shorter enough
    rw [findLoop, if_neg more]
    obtain ⟨issuer', resolved, holds'⟩ := entryResolve_decides own holds
    rw [← standing_snoc] at holds'
    obtain ⟨here, later⟩ := determined.split
    obtain ⟨b, verdict, says_⟩ := @queryMatches_decides c same query ⟨e.entry, e.info, issuer'⟩ _ compares holds' rfl
      serial query_ here
    refine next.bind (resolved.bind ?_)
    rw [revocations, scanned]
    cases b with
    | false =>
      have apart : ¬Revocation.Matches same _ query := fun matches_ =>
        absurd (says_.mpr matches_) Bool.false_ne_true
      have kept : Decides .limit (matchUpdate c ⟨e.entry, e.info, issuer'⟩ query found) () (.ok found) := by
        unfold matchUpdate
        exact verdict.bind decides_pure
      rw [if_neg apart]
      exact kept.bind (@ih _ passes _ _ fewer holds' later)
    | true =>
      rw [if_pos (says_.mp rfl)]
      by_cases twice : found.found ≠ 0
      · have refused : Decides .limit (matchUpdate c ⟨e.entry, e.info, issuer'⟩ query found) ()
            (.error .invalid) := by
          unfold matchUpdate
          refine verdict.bind ?_
          rw [if_pos rfl, if_pos twice]
          exact decides_throw
        rw [if_pos twice]
        exact refused.stop
      · have reported : Decides .limit (matchUpdate c ⟨e.entry, e.info, issuer'⟩ query found) ()
            (.ok (RevokedEntry.reported ⟨e.entry, e.info, issuer'⟩)) := by
          unfold matchUpdate
          refine verdict.bind ?_
          rw [if_pos rfl, if_neg twice]
          exact decides_pure
        rw [if_neg twice]
        exact reported.bind (@ih _ passes _ _ fewer holds' later)

theorem crlFind_decides {list : RevocationList} {entries : List ListedEntry}
    (compares : ComparesIssuers c same) (query_ : query.serial ≠ [] ∧ query.issuer ≠ [])
    (lists : Lists c list crl entries)
    (determined : Determined c same (revocations list.issuer [] entries) query) :
    Decides .limit (crlFind c list crl query) ()
      (scanned same query .zero (revocations list.issuer [] entries)) := by
  obtain ⟨reader, opened, read⟩ := lists.entries
  have version := lists.version
  unfold crlFind
  rw [if_neg (by simp [query_.1, query_.2]), lists.plain]
  refine @Decides.bind _ _ _ _ _ _ _ reader _ _ ?_ ?_
  · unfold revokedInit
    rw [if_neg (by rintro (⟨one, two⟩ | none) <;> simp_all [lists.issuer]), if_neg (not_not.mpr lists.policy)]
    exact opened
  · exact findLoop_decides compares query_.1 read le_rfl ⟨rfl, rfl⟩ determined

end

end TinyCrypto.Crl
