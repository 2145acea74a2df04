import TinyCrypto.Cms.AttributeSets

/-! # The order of the attributes

DER accepts a set in ascending order only. Otherwise every order of an accepted set is
accepted, and says the same.
-/

namespace TinyCrypto.Cms

open Tlv Pki
open Library Library.Program Library.Metered

theorem compareGreater_self (a : Bytes) : compareGreater a a = false := by
  induction a with
  | nil => rfl
  | cons x xs ih => rw [compareGreater, if_pos rfl, ih]

theorem compareGreater_trans {a b c : Bytes} (first : compareGreater a b = false)
    (second : compareGreater b c = false) : compareGreater a c = false := by
  induction a generalizing b c with
  | nil => rfl
  | cons x xs ih =>
    cases b with
    | nil => cases first
    | cons y ys =>
      cases c with
      | nil => cases second
      | cons z zs =>
        rw [compareGreater] at first second ⊢
        by_cases left : x = y
        · subst left
          rw [if_pos rfl] at first
          by_cases right : x = z
          · rw [if_pos right] at second ⊢
            exact ih first second
          · rw [if_neg right] at second ⊢
            exact second
        · rw [if_neg left, decide_eq_false_iff_not] at first
          by_cases right : y = z
          · subst right
            rw [if_neg left, decide_eq_false_iff_not]
            exact first
          · rw [if_neg right, decide_eq_false_iff_not] at second
            have far : ¬z < x := fun above => by
              simp only [UInt8.lt_iff_toNat_lt] at first second above
              omega
            have differ : x ≠ z := fun same => by
              subst same
              have middle : y.toNat = x.toNat := by
                simp only [UInt8.lt_iff_toNat_lt] at first second
                omega
              exact left (UInt8.toNat_inj.mp middle).symm
            rw [if_neg differ, decide_eq_false_iff_not]
            exact far

def Ascending (members : List ProfileElement) : Prop :=
  (members.map ProfileElement.encoded).Pairwise fun a b => compareGreater a b = false

def Follows (members : List ProfileElement) (previous : Option Bytes) : Prop :=
  ∀ e ∈ members, ∃ last, previous = some last ∧ compareGreater e.encoded last = false

theorem Ascending.snoc {members : List ProfileElement} {previous : Option Bytes} {member : ProfileElement}
    (ascending : Ascending members) (follows : Follows members previous)
    (placed : previous.elim false (compareGreater · member.encoded) = false) :
    Ascending (members ++ [member]) ∧ Follows (members ++ [member]) (some member.encoded) := by
  have below : ∀ e ∈ members, compareGreater e.encoded member.encoded = false := by
    intro e within
    obtain ⟨last, rfl, below⟩ := follows e within
    exact compareGreater_trans below placed
  constructor
  · rw [Ascending, List.map_append, List.pairwise_append]
    refine ⟨ascending, List.pairwise_singleton _ _, ?_⟩
    intro a within b last
    obtain ⟨e, member', rfl⟩ := List.mem_map.mp within
    rw [List.map_singleton, List.mem_singleton] at last
    exact last ▸ below e member'
  · intro e within
    rw [List.mem_append, List.mem_singleton] at within
    refine ⟨_, rfl, ?_⟩
    rcases within with earlier | rfl
    · exact below e earlier
    · exact compareGreater_self _

section

variable {tree : Workspace} {profile : Profile} {readers : AttributeReaders} {policy : VerificationPolicy}
  {attributes attributes' : List Attribute} {outer : ProfileElement} {input encoded : Bytes}
  {parsed said : SignedAttributes} {s s' : Budgeted Unit} {member : ProfileElement} {oid : Bytes}

def AttributeLoop.start : AttributeLoop := ⟨none, .nothing⟩

structure Looped (tree : Workspace) (profile : Profile) (readers : AttributeReaders)
    (policy : VerificationPolicy) (members : List ProfileElement) (state : AttributeLoop) : Prop where
  attributes : ∃ attributes : List Attribute, attributes.map Attribute.member = members ∧
    Distinct tree profile readers policy attributes ∧ state.parsed = saidTogether .nothing attributes
  ordered : policy.attributes = .der → Ascending members ∧ Follows members state.previous

theorem looped_start : Looped tree profile readers policy [] .start where
  attributes := ⟨[], rfl, ⟨fun _ within => absurd within List.not_mem_nil,
    fun _ within => absurd within List.not_mem_nil, List.nodup_nil⟩, rfl⟩
  ordered _ := ⟨List.Pairwise.nil, fun _ within => absurd within List.not_mem_nil⟩

theorem Looped.step (reliable : readers.AreReliable) (configured : config tree.ber profile = .ok)
    (twic : policy.attributeOids = .pivTwic → readers.twic = true) {members : List ProfileElement}
    {member : ProfileElement} {state state' : AttributeLoop} (valid : member.Valid (reading tree profile) tree.limits)
    (size : (encodings members).length ≤ tree.limits.maxInput)
    (looped : Looped tree profile readers policy members state)
    (given : Gives (attributeStep tree profile readers policy (encodings members) member state) s state' s') :
    Looped tree profile readers policy (members ++ [member]) state' := by
  obtain ⟨⟨attributes, rfl, distinct, said⟩, ordered⟩ := looped
  obtain ⟨oid, saying, reads, fresh, rfl, placed⟩ :=
    attributeStep_reads reliable configured distinct.members size given
  rw [said] at fresh
  have others := (fresh_iff twic distinct.reads).mp fresh
  refine ⟨⟨attributes ++ [⟨member, oid, saying⟩], ?_, ⟨?_, ?_, ?_⟩, ?_⟩, fun der => ?_⟩
  · rw [List.map_append]
    rfl
  · intro a within
    rw [List.mem_append, List.mem_singleton] at within
    rcases within with earlier | rfl
    · exact distinct.valid a earlier
    · exact valid
  · intro a within
    rw [List.mem_append, List.mem_singleton] at within
    rcases within with earlier | rfl
    · exact distinct.reads a earlier
    · exact reads
  · rw [List.map_append, List.nodup_append]
    refine ⟨distinct.once, List.nodup_singleton _, ?_⟩
    intro counted within last here same
    obtain ⟨a, found, rfl⟩ := List.mem_map.mp within
    rw [List.map_singleton, List.mem_singleton] at here
    exact others a found (same.trans here)
  · rw [said, saidTogether, saidTogether, List.foldl_append]
    rfl
  · obtain ⟨ascending, follows⟩ := ordered der
    exact ascending.snoc follows (placed der)

theorem attributesLoop_gives (reliable : readers.AreReliable) (configured : config tree.ber profile = .ok)
    (twic : policy.attributeOids = .pivTwic → readers.twic = true)
    (size : input.length ≤ tree.limits.maxInput) {state : AttributeLoop}
    (given : Gives (forElements (reading tree profile) tree.limits (attributeStep tree profile readers policy)
      input .start) s state s') :
    ∃ attributes : List Attribute, encodings (attributes.map Attribute.member) = input ∧
      Distinct tree profile readers policy attributes ∧ state.parsed = saidTogether .nothing attributes ∧
      (policy.attributes = .der → Ascending (attributes.map Attribute.member)) := by
  obtain ⟨members, joined, -, looped⟩ := forElements_gives
    (fun members state _ => (encodings members).length ≤ tree.limits.maxInput →
      Looped tree profile readers policy members state) given
    (fun _ => looped_start)
    (fun members member state s state' s' valid looped step size => by
      rw [encodings_append, List.length_append] at size
      exact (looped (by omega)).step reliable configured twic valid (by omega) step)
  obtain ⟨⟨attributes, rfl, distinct, said⟩, ordered⟩ := looped (joined ▸ size)
  exact ⟨attributes, joined, distinct, said, fun der => (ordered der).1⟩

theorem attributesLoop_pays (reliable : readers.AreReliable) (configured : config tree.ber profile = .ok)
    (twic : policy.attributeOids = .pivTwic → readers.twic = true) (unordered : policy.attributes ≠ .der)
    (distinct : Distinct tree profile readers policy attributes)
    (size : (encodings (attributes.map Attribute.member)).length ≤ tree.limits.maxInput)
    (room : attributes.length ≤ tree.limits.maxElements) :
    ∃ state : AttributeLoop, Pays (forElements (reading tree profile) tree.limits
        (attributeStep tree profile readers policy) (encodings (attributes.map Attribute.member)) .start :
        Metered Result Unit _) state ∧ state.parsed = saidTogether .nothing attributes := by
  suffices run : ∃ state : AttributeLoop, Pays (forElements (reading tree profile) tree.limits
        (attributeStep tree profile readers policy) (encodings (attributes.map Attribute.member)) .start :
        Metered Result Unit _) state ∧ ∀ first second, attributes = first ++ second →
        first.map Attribute.member = attributes.map Attribute.member →
          state.parsed = saidTogether .nothing first by
    obtain ⟨state, paid, said⟩ := run
    exact ⟨state, paid, said attributes [] (List.append_nil _).symm rfl⟩
  refine forElements_pays (fun members (state : AttributeLoop) => ∀ first second, attributes = first ++ second →
    first.map Attribute.member = members → state.parsed = saidTogether .nothing first) configured
    distinct.members size (by rwa [List.length_map]) ?_ ?_
  · intro first second _ empty
    rw [List.map_eq_nil_iff.mp empty]
    rfl
  · intro before member after state split said
    obtain ⟨first, rest, rfl, rfl, later⟩ := List.map_eq_append_iff.mp split
    obtain ⟨a, second, rfl, rfl, rfl⟩ := List.map_eq_cons_iff.mp later
    have parsed := said first (a :: second) rfl rfl
    have inside (b : Attribute) (within : b ∈ first) : b ∈ first ++ a :: second :=
      List.mem_append_left _ within
    have here : a ∈ first ++ a :: second := List.mem_append_right _ (List.mem_cons_self ..)
    have others : ∀ b ∈ first, countedType policy.attributeOids b.oid ≠
        countedType policy.attributeOids a.oid := by
      intro b within
      have once := distinct.once
      rw [List.map_append, List.nodup_append] at once
      exact once.2.2 _ (List.mem_map_of_mem within) _ (List.mem_cons_self ..)
    have fresh := (fresh_iff twic fun b within => distinct.reads b (inside b within)).mpr others
    rw [List.map_append, encodings_append, List.length_append] at size
    rw [List.length_append] at room
    obtain ⟨previous, kept⟩ := state
    dsimp only at parsed
    subst parsed
    refine ⟨_, attributeStep_pays reliable configured (fun e within => ?_) (by omega) (by
      rw [List.length_map]; omega) unordered (distinct.reads a here) fresh (fun e within => ?_) previous, ?_⟩
    · obtain ⟨b, found, rfl⟩ := List.mem_map.mp within
      exact distinct.valid b (inside b found)
    · obtain ⟨b, found, rfl⟩ := List.mem_map.mp within
      exact ⟨_, _, distinct.reads b (inside b found)⟩
    · intro first' second' split' same
      have length : first'.length = first.length + 1 := by
        have := congrArg List.length same
        rwa [List.length_map, List.length_append, List.length_map] at this
      have cut : first' = first ++ [a] := by
        have whole : first ++ [a] ++ second = first' ++ second' := by
          rw [← split', List.append_assoc]
          rfl
        exact (List.append_inj whole (by rw [List.length_append, length]; rfl)).1.symm
      rw [cut, saidTogether, saidTogether, List.foldl_append]
      rfl

structure SetRead (tree : Workspace) (readers : AttributeReaders) (policy : VerificationPolicy)
    (outer : ProfileElement) (attributes : List Attribute) (parsed : SignedAttributes) : Prop where
  admitted : policyValid readers.twic policy = true
  valid : outer.Valid (reading tree (attributeProfile policy)) tree.limits
  tagged : outer.tagIs 0xa0 = true
  nonempty : outer.value ≠ []
  walks : WalksDefinite (reading tree (attributeProfile policy)) tree.limits tree.capacity outer.encoded
  distinct : Distinct tree (attributeProfile policy) readers policy attributes
  joined : encodings (attributes.map Attribute.member) = outer.value
  required : (saidTogether .nothing attributes).contentType.isSome = true ∧
    (saidTogether .nothing attributes).messageDigest.isSome = true
  parsed : parsed = { saidTogether .nothing attributes with
    signatureInput := [[0x31], outer.encoded.drop 1] }

theorem attributeProfile_plain : (attributeProfile policy).iso = false := by
  unfold attributeProfile
  split <;> rfl

theorem twic_of_valid (valid : policyValid readers.twic policy = true) :
    policy.attributeOids = .pivTwic → readers.twic = true := by
  intro combined
  rw [policyValid, combined] at valid
  exact valid

theorem cmsOpen_walks {tag : UInt8} (given : Gives (cmsOpen tree profile tag encoded) s outer s') :
    WalksDefinite (reading tree profile) tree.limits tree.capacity encoded ∧ outer.value ≠ [] := by
  simp only [cmsOpen, gives_bind, gives_lift, gives_refuse, gives_charge, gives_pure] at given
  obtain ⟨element, _, ⟨read, rfl⟩, checked, _, _, ⟨_, rfl⟩, accepted, definite, rfl, rfl⟩ := given
  rw [ne_eq, not_not] at accepted
  simp only [Bool.or_eq_true, decide_eq_true_eq, not_or] at checked
  exact ⟨⟨accepted, Bool.eq_false_iff.mpr definite⟩, checked.2⟩

theorem value_le (valid : outer.Valid (reading tree profile) tree.limits) :
    outer.value.length ≤ outer.encoded.length := by
  obtain ⟨head, same, -⟩ := valid
  rw [same, List.length_append]
  exact Nat.le_add_left _ _

theorem signedAttributesRead_reads (reliable : readers.AreReliable)
    (given : Gives (signedAttributesRead tree readers policy encoded) s parsed s') :
    ∃ outer attributes, outer.encoded = encoded ∧ SetRead tree readers policy outer attributes parsed ∧
      (policy.attributes = .der → Ascending (attributes.map Attribute.member)) := by
  simp only [signedAttributesRead, gives_refuse, gives_bind, gives_charge, gives_pure] at given
  obtain ⟨admitted, _, _, ⟨_, rfl⟩, outer, _, opened, state, _, loop, present, rfl, rfl⟩ := given
  rw [Bool.not_eq_true', Bool.not_eq_false] at admitted
  obtain ⟨rfl, valid, tagged⟩ := cmsOpen_gives opened
  obtain ⟨walks, nonempty⟩ := cmsOpen_walks opened
  obtain ⟨configured, size⟩ := walks.size attributeProfile_plain
  obtain ⟨attributes, joined, distinct, said, ordered⟩ := attributesLoop_gives reliable configured
    (twic_of_valid admitted) (Nat.le_trans (value_le valid) size) loop
  rw [said] at present ⊢
  refine ⟨outer, attributes, rfl, ⟨admitted, valid, tagged, nonempty, walks, distinct, joined, ?_, rfl⟩, ordered⟩
  simpa [Option.isSome_iff_ne_none] using present

theorem SetRead.pays (reliable : readers.AreReliable) (unordered : policy.attributes ≠ .der)
    (set : SetRead tree readers policy outer attributes parsed) (room : attributes.length ≤ tree.limits.maxElements) :
    Pays (signedAttributesRead tree readers policy outer.encoded : Metered Result Unit _) parsed := by
  obtain ⟨configured, size⟩ := set.walks.size attributeProfile_plain
  have whole : readProfile (reading tree (attributeProfile policy)) tree.limits outer.encoded = .ok outer := by
    have read : readProfile (reading tree (attributeProfile policy)) tree.limits (outer.encoded ++ []) =
        .ok outer := readProfile_valid configured set.valid (by rwa [List.append_nil])
    rwa [List.append_nil] at read
  have opened : Pays (cmsOpen tree (attributeProfile policy) 0xa0 outer.encoded : Metered Result Unit _) outer := by
    simp only [cmsOpen]
    refine pays_bind (pays_lift whole) ?_
    rw [if_neg (by simp [set.tagged, set.nonempty])]
    refine pays_bind pays_charge ?_
    have accepted : (walk tree.ber tree.sizeT (attributeProfile policy) tree.limits tree.capacity
        outer.encoded).1 = .ok := set.walks.1
    have definite : ((walk tree.ber tree.sizeT (attributeProfile policy) tree.limits tree.capacity
        outer.encoded).2.any fun e => e.kind = .begin && e.header.elim false (·.indefinite)) = false :=
      set.walks.2
    rw [if_neg (not_not.mpr accepted), if_neg (Bool.eq_false_iff.mp definite)]
    exact pays_pure
  obtain ⟨state, paid, said⟩ := attributesLoop_pays reliable configured (twic_of_valid set.admitted) unordered
    set.distinct (set.joined ▸ Nat.le_trans (value_le set.valid) size) room
  rw [set.joined] at paid
  simp only [signedAttributesRead]
  rw [if_neg (by rw [set.admitted]; exact Bool.false_ne_true)]
  refine pays_bind pays_charge (pays_bind opened (pays_bind paid ?_))
  obtain ⟨type, digest⟩ := set.required
  rw [said, if_neg (by simp [← Option.not_isSome, type, digest]), set.parsed]
  exact pays_pure

theorem SetRead.perm {members : List ProfileElement} (set : SetRead tree readers policy outer attributes parsed)
    (perm : (attributes.map Attribute.member).Perm members) :
    ∃ attributes', attributes'.length ≤ tree.limits.maxElements ∧
      SetRead tree readers policy (reordered outer members) attributes'
        { parsed with signatureInput := [[0x31], (reordered outer members).encoded.drop 1] } := by
  have constructed : outer.header.constructed = true := by
    obtain ⟨head, -, -, -, header⟩ := set.valid
    have tag : outer.header.tag = [0xa0] := of_decide_eq_true set.tagged
    rw [header.constructed, tag]
    rfl
  obtain ⟨valid, walks, few⟩ := reordered_walks attributeProfile_plain set.valid set.walks constructed
    set.distinct.members set.joined perm
  obtain ⟨moved, rfl, attributesPerm⟩ := perm_of_map perm
  have said : saidTogether .nothing moved = saidTogether .nothing attributes :=
    (saidTogether_perm set.distinct attributesPerm).symm
  refine ⟨moved, ?_, ⟨set.admitted, valid, set.tagged, ?_, walks, set.distinct.perm attributesPerm, rfl, ?_, ?_⟩⟩
  · rw [List.length_map] at few
    rwa [← attributesPerm.length_eq]
  · intro empty
    have length := encodings_perm perm
    rw [set.joined, show encodings (moved.map Attribute.member) = [] from empty] at length
    exact set.nonempty (List.eq_nil_of_length_eq_zero length)
  · rw [said]
    exact set.required
  · rw [said, set.parsed]

theorem Reads.single (reads : Reads tree profile readers policy member oid said)
    (interpreted : attributeClassify readers.twic oid policy.attributeOids ≠ .other) :
    ∃ v, IsAttribute (reading tree profile) tree.limits member oid v := by
  obtain ⟨sequence, fields, type, set, after, last, opened, found, tagged, same, -, found', tagged', closed, -,
    saying⟩ := reads
  obtain ⟨reader, value, rest, started, read, ended, -⟩ := saying.single interpreted
  obtain ⟨typeValid, joined⟩ := nextProfile_ok found
  obtain ⟨setValid, later⟩ := nextProfile_ok found'
  obtain ⟨valid, contents⟩ := nextProfile_ok read
  rw [profileInit_ok opened, later, closed, List.append_nil] at joined
  rw [profileInit_ok started, ended, List.append_nil] at contents
  exact ⟨value, sequence, ⟨type, set, joined, typeValid, tagged, same, setValid, tagged', contents⟩, valid⟩

theorem saidTogether_type {kind : AttributeKind} {counted : Bytes} (own : kind.oid = some counted)
    (plain : counted ≠ pivFascn) (distinct : Distinct tree profile readers policy attributes)
    (set : (saidTogether .nothing attributes).has kind = true) : ∃ a ∈ attributes, a.oid = counted := by
  have empty : SignedAttributes.nothing.has kind = false := by cases kind <;> rfl
  rw [has_saidTogether, empty, Bool.false_or, List.any_eq_true] at set
  obtain ⟨a, within, says_⟩ := set
  obtain ⟨values, saying⟩ := (distinct.reads a within).saying
  have counts := classify_counted ((saying.only.has says_) ▸ own)
  refine ⟨a, within, ?_⟩
  unfold countedType at counts
  split at counts
  · exact absurd counts.symm plain
  · exact counts

end

/-- `TC_CMS_signed_attributes_read` with the result that it writes. -/
def signedAttributesStore (tree : Workspace) (readers : AttributeReaders) (policy : VerificationPolicy)
    (encoded : Bytes) : Metered Result SignedAttributes Unit := do
  let parsed ← borrow id (signedAttributesRead tree readers policy encoded)
  update fun _ => parsed

structure SignedSet (tree : Workspace) (readers : AttributeReaders) (policy : VerificationPolicy)
    (encoded : Bytes) (parsed : SignedAttributes) (outer : ProfileElement) (members : List ProfileElement)
    (oids : List Bytes) : Prop where
  framed : outer.encoded = encoded ∧ outer.Valid (reading tree (attributeProfile policy)) tree.limits ∧
    outer.tagIs 0xa0 = true ∧ encodings members = outer.value ∧
    ∀ e ∈ members, e.Valid (reading tree (attributeProfile policy)) tree.limits
  typed : members.map (attributeType (reading tree (attributeProfile policy)) tree.limits) = oids.map some
  once : (oids.map (countedType policy.attributeOids)).Nodup
  required : contentTypeOid ∈ oids ∧ messageDigestOid ∈ oids ∧ parsed.contentType.isSome = true ∧
    parsed.messageDigest.isSome = true
  single : ∀ member ∈ members, ∀ oid,
    attributeType (reading tree (attributeProfile policy)) tree.limits member = some oid →
    attributeClassify readers.twic oid policy.attributeOids ≠ .other →
      ∃ v, IsAttribute (reading tree (attributeProfile policy)) tree.limits member oid v
  ordered : policy.attributes = .der → Ascending members
  permuted : policy.attributes ≠ .der → ∀ members', members.Perm members' →
    Pays (signedAttributesRead tree readers policy (reordered outer members').encoded : Metered Result Unit _)
      { parsed with signatureInput := [[0x31], (reordered outer members').encoded.drop 1] }
  input : parsed.signatureInput.flatten = encoded.set 0 0x31

theorem SetRead.signed {tree : Workspace} {readers : AttributeReaders} {policy : VerificationPolicy}
    {attributes : List Attribute} {outer : ProfileElement} {parsed : SignedAttributes}
    (reliable : readers.AreReliable) (set : SetRead tree readers policy outer attributes parsed)
    (ordered : policy.attributes = .der → Ascending (attributes.map Attribute.member)) :
    SignedSet tree readers policy outer.encoded parsed outer (attributes.map Attribute.member)
      (attributes.map Attribute.oid) where
  framed := ⟨rfl, set.valid, set.tagged, set.joined, set.distinct.members⟩
  typed := by
    rw [List.map_map, List.map_map]
    exact List.map_congr_left fun a within => (set.distinct.reads a within).type
  once := by
    rw [List.map_map]
    exact set.distinct.once
  required := by
    obtain ⟨type, digest⟩ := set.required
    have types := @saidTogether_type _ _ _ _ _ .contentType _ rfl (by decide) set.distinct type
    have digests := @saidTogether_type _ _ _ _ _ .messageDigest _ rfl (by decide) set.distinct digest
    refine ⟨List.mem_map.mpr types, List.mem_map.mpr digests, ?_, ?_⟩
    · rw [set.parsed]
      exact type
    · rw [set.parsed]
      exact digest
  single := by
    intro e within oid typed interpreted
    obtain ⟨a, found, rfl⟩ := List.mem_map.mp within
    have reads := set.distinct.reads a found
    rw [reads.type, Option.some.injEq] at typed
    subst typed
    exact reads.single interpreted
  ordered := ordered
  permuted := by
    intro unordered members perm
    obtain ⟨moved, room, moves⟩ := set.perm perm
    exact moves.pays reliable unordered room
  input := by
    have pos := set.valid.encoded_pos
    rw [set.parsed]
    cases encoded : outer.encoded with
    | nil => rw [encoded] at pos; cases pos
    | cons first rest => simp

/-- Whatever the work, a set that is read is accepted as it should be, and otherwise nothing is written. -/
theorem signed_attributes_set (tree : Workspace) (readers : AttributeReaders)
    (reliable : readers.AreReliable) (policy : VerificationPolicy) (encoded : Bytes) (work : Nat)
    (out : SignedAttributes) :
    match (signedAttributesStore tree readers policy encoded).exec ⟨work, out⟩ with
    | (.error _, after) => after.data = out
    | (.ok (), after) => ∃ outer members oids,
        SignedSet tree readers policy encoded after.data outer members oids := by
  rw [signedAttributesStore, exec_bind]
  cases run : (signedAttributesRead tree readers policy encoded : Metered Result Unit _).exec ⟨work, ()⟩ with
  | mk outcome after =>
    have borrowed : (borrow id (signedAttributesRead tree readers policy encoded) :
        Metered Result SignedAttributes _).exec ⟨work, out⟩ = (outcome.mapError id, ⟨after.work, out⟩) := by
      change (((signedAttributesRead tree readers policy encoded : Metered Result Unit _).exec
        ⟨work, ()⟩).1.mapError id, (⟨((signedAttributesRead tree readers policy encoded :
          Metered Result Unit _).exec ⟨work, ()⟩).2.work, out⟩ : Budgeted SignedAttributes)) = _
      rw [run]
    rw [borrowed]
    cases outcome with
    | error e => rfl
    | ok parsed =>
      change ∃ outer members oids, SignedSet tree readers policy encoded parsed outer members oids
      obtain ⟨outer, attributes, rfl, set, ordered⟩ := signedAttributesRead_reads reliable run
      exact ⟨outer, attributes.map Attribute.member, attributes.map Attribute.oid, set.signed reliable ordered⟩

def AttributeReaders.accepting : AttributeReaders where
  twic := true
  name _ _ := pure ()
  capabilities _ _ := pure ()
  name_steady _ _ := agree_pure ()
  capabilities_steady _ _ := agree_pure ()

theorem AttributeReaders.accepting_reliable : AttributeReaders.accepting.AreReliable :=
  ⟨fun _ _ => reliable_pure, fun _ _ => reliable_pure⟩

/-- A content type and a message digest. -/
def pairAttributes : Bytes := [0xa0, 0x24, 0x30, 0x10, 6, 9] ++ contentTypeOid ++ [0x31, 3, 6, 1, 0x2a] ++
  [0x30, 0x10, 6, 9] ++ messageDigestOid ++ [0x31, 3, 4, 1, 7]

def pairTree : Workspace := ⟨true, 8, 2 ^ 64, ⟨100, 100, 8, 100⟩, 8⟩

def pairPolicy : VerificationPolicy := ⟨.ber, .berDefiniteOrder, .null, .cms, .skipListed⟩

theorem signed_attributes_set_pair : ∃ outer members oids parsed,
    SignedSet pairTree .accepting pairPolicy pairAttributes parsed outer members oids := by
  have result := signed_attributes_set pairTree .accepting AttributeReaders.accepting_reliable pairPolicy
    pairAttributes 10000 .nothing
  have accepted : ((signedAttributesStore pairTree .accepting pairPolicy pairAttributes).exec
      ⟨10000, .nothing⟩).1 = .ok () := by decide +kernel
  revert result accepted
  cases (signedAttributesStore pairTree .accepting pairPolicy pairAttributes).exec ⟨10000, .nothing⟩ with
  | mk outcome after =>
    rintro result accepted
    dsimp only at accepted
    subst accepted
    obtain ⟨outer, members, oids, set⟩ := result
    exact ⟨outer, members, oids, _, set⟩

end TinyCrypto.Cms
