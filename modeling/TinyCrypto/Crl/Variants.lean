import TinyCrypto.Crl.SelectionKeeps
import TinyCrypto.Library.Together

/-! # Primitives that differ in their scope table and signer cache

A selection runs alongside the one of a variant when both tell equal scopes apart alike, and check
signatures alike. All else they read is the same.
-/

namespace TinyCrypto.Crl

open Library Library.Program Library.Metered
open X509 (SignerPath)

def Primitives.vary {N K : Type} (c : Primitives N K) (scopes : Option (List Nat)) (hasCache : Bool)
    (cacheStore : SignerPath → Priced (Except Result Unit)) : Primitives N K :=
  { c with scopes := scopes, hasCache := hasCache, cacheStore := cacheStore }

section

variable {N K : Type} {c : Primitives N K} {query : Query N} {i j : Nat}

theorem record_answered : Answered (record c i) := by
  unfold record
  cases c.records[i]? with
  | some r => exact answered_pure
  | none => exact answered_throw

theorem scopeReasons_answered : Answered (scopeReasons c i query) := by
  refine record_answered.bind fun r => answered_ite answered_pure ?_
  refine answered_call.bind fun matches_ => answered_ite answered_pure ?_
  exact answered_call.bind fun matches_ => answered_ite answered_pure answered_pure

theorem coverageAt_answered : Answered (coverageAt c i query) := by
  refine answered_charge.bind fun _ => record_answered.bind fun r => answered_ite answered_throw ?_
  refine answered_lift.bind fun freshness => answered_ite ?_ answered_pure
  exact scopeReasons_answered.bind fun reasons => answered_pure

theorem crlOrder_answered {left right : Selected} : Answered (crlOrder c left right) := by
  refine record_answered.bind fun a => record_answered.bind fun b => ?_
  cases c.orderPolicy with
  | number => exact answered_ite answered_throw answered_call
  | thisUpdate => exact answered_charge.bind fun _ => answered_lift

theorem selectedLookup_answered {selected : Selected} : Answered (selectedLookup c selected) := by
  refine answered_call.bind fun base => ?_
  cases selected.delta with
  | none => exact answered_lift
  | some delta => exact answered_call.bind fun entry => answered_lift

theorem crlApply_answered {selected : Selected} {evidence : Evidence} :
    Answered (crlApply c selected query evidence) := by
  refine answered_lift.bind fun status => answered_ite answered_throw ?_
  refine coverageAt_answered.bind fun coverage => answered_ite answered_throw ?_
  refine selectedLookup_answered.bind fun entry => ?_
  split
  · exact answered_pure
  · exact answered_throw

theorem deltaNext_answered {base : Nat} : Answered (deltaNext c base i) := by
  refine answered_charge.bind fun _ => record_answered.bind fun delta => ?_
  exact answered_ite answered_pure answered_call

theorem deltaRank_answered {a : DeltaChoice} : Answered (deltaRank c i a) := by
  unfold deltaRank
  cases a.chosen with
  | none => exact answered_pure
  | some chosen =>
    refine answered_call.bind fun order => answered_ite answered_pure ?_
    refine answered_ite answered_pure (answered_call.bind fun equal => ?_)
    refine answered_ite answered_pure (answered_charge.bind fun _ => ?_)
    refine record_answered.bind fun left => record_answered.bind fun right => ?_
    exact answered_lift.bind fun later => answered_pure

theorem applyAgain_answered {chosen : Applied} {candidate : Evidence} {effective : Record} :
    Answered (applyAgain chosen candidate effective : ScopeProgram K Unit) := by
  refine answered_lift.bind fun order => answered_ite answered_throw ?_
  exact answered_lift.bind fun equal => answered_ite answered_pure answered_throw

end

section

variable {N K : Type} {c c' : Primitives N K} {R : Storage K → Storage K → Prop} {signer : Bytes}
  {reference : Nat} {scopes : Option (List Nat)} {hasCache : Bool}
  {cacheStore : SignerPath → Priced (Except Result Unit)}

theorem alongside_record {A : Type} {f f' : Record → ScopeProgram K A} {i : Nat}
    (next : ∀ r, c.records[i]? = some r → Alongside R (f r) (f' r)) :
    Alongside R (record c i >>= f) (record c i >>= f') := by
  unfold record
  cases found : c.records[i]? with
  | some r => exact next r found
  | none =>
    have failed : Together R (throw .argument : ScopeProgram K Record) (throw .argument)
        (fun _ _ _ => False) R := together_throw fun _ _ before => before
    exact failed.bind fun _ _ _ never => never.elim

theorem attemptPublish_alongside {proposes : Bool} {evaluated : Evaluated}
    (attempt : ∀ evidence {d d'}, R d d' →
      R { d with attempt := evidence } { d' with attempt := evidence })
    (proposal : ∀ proposal {d d'}, R d d' →
      R { d with proposal := proposal } { d' with proposal := proposal }) :
    Alongside R (attemptPublish proposes evaluated) (attemptPublish proposes evaluated) := by
  have evidence : Alongside R
      (if evaluated.result ≠ .ok then throw evaluated.result
        else update fun d => { d with attempt := evaluated.evidence } : ScopeProgram K Unit)
      (if evaluated.result ≠ .ok then throw evaluated.result
        else update fun d => { d with attempt := evaluated.evidence }) :=
    alongside_guard fun _ => alongside_update fun _ _ => attempt _
  unfold attemptPublish
  dsimp only
  generalize (proposes && _ : Bool) = ranked
  cases ranked with
  | false => exact evidence
  | true =>
    cases evaluated.selected with
    | none => exact evidence
    | some selected => exact alongside_update fun _ _ => proposal _

def SameScopes (R : Storage K → Storage K → Prop) (c : Primitives N K) (scopes : Option (List Nat))
    (hasCache : Bool) (cacheStore : SignerPath → Priced (Except Result Unit)) (reference : Nat) : Prop :=
  ∀ i r, c.records[i]? = some r → r.policy = .ok → Alongside R (sameScope c reference i)
    (sameScope (c.vary scopes hasCache cacheStore) reference i)

section

variable (cached : ∀ i, i < c.records.length → Alongside R (signatureCached c signer i)
  (signatureCached (c.vary scopes hasCache cacheStore) signer i))

include cached

theorem deltaStep_alongside (base i : Nat) (a : DeltaChoice) :
    Alongside R (deltaStep c signer base i a)
      (deltaStep (c.vary scopes hasCache cacheStore) signer base i a) := by
  refine deltaNext_answered.alongside.bind fun eligible => alongside_ite (fun _ => ?_)
    fun _ => alongside_pure
  refine alongside_record fun delta found => alongside_lift.bind fun freshness => ?_
  refine alongside_ite (fun _ => alongside_pure) fun _ => ?_
  refine (cached i (inside_of_record found)).trial.bind fun outcome => ?_
  rcases outcome with e | _
  · cases e <;> first | exact alongside_pure | exact alongside_throw
  · exact deltaRank_answered.alongside.bind fun a => alongside_pure

theorem deltaSelect_alongside (base : Nat) : Alongside R (deltaSelect c signer base)
      (deltaSelect (c.vary scopes hasCache cacheStore) signer base) := by
  refine record_answered.alongside.bind fun complete => alongside_guard fun _ =>
    alongside_guard fun _ => ?_
  refine (alongside_forRange (fun i a => deltaStep_alongside cached base i a) 0 c.records.length
    ⟨none, false⟩).bind fun turn => ?_
  rcases turn with ⟨chosen, conflicting⟩ | _
  · cases chosen with
    | some chosen => exact alongside_pure
    | none => exact alongside_throw
  · exact alongside_throw

theorem effectiveDelta_alongside (i : Nat) (freshness : Freshness) :
    Alongside R (effectiveDelta c signer i freshness)
      (effectiveDelta (c.vary scopes hasCache cacheStore) signer i freshness) := by
  refine alongside_ite (fun _ => alongside_pure) fun _ => ?_
  refine (deltaSelect_alongside cached i).trial.bind fun outcome => ?_
  rcases outcome with e | ⟨delta, conflicting⟩
  · cases e <;> first
      | exact alongside_ite (fun _ => alongside_pure) fun _ => alongside_pure
      | exact alongside_throw
  · exact alongside_pure

variable (same : SameScopes R c scopes hasCache cacheStore reference)

include same

theorem effectiveNext_alongside (i : Nat) : Alongside R (effectiveNext c signer reference i)
      (effectiveNext (c.vary scopes hasCache cacheStore) signer reference i) := by
  refine alongside_charge.bind fun _ => alongside_record fun base found => ?_
  refine alongside_ite (fun _ => alongside_pure) fun usable => ?_
  have policy : base.policy = .ok := by
    by_contra other
    simp [other] at usable
  refine (same i base found policy).bind fun inScope => alongside_ite (fun _ => ?_)
    fun _ => alongside_pure
  refine alongside_lift.bind fun freshness => alongside_ite (fun _ => alongside_pure) fun _ => ?_
  refine (cached i (inside_of_record found)).trial.bind fun outcome => ?_
  rcases outcome with e | _
  · cases e <;> first | exact alongside_pure | exact alongside_throw
  · exact effectiveDelta_alongside cached i freshness

theorem latestStep_alongside (i : Nat) (a : Latest) :
    Alongside R (latestStep c signer reference i a)
      (latestStep (c.vary scopes hasCache cacheStore) signer reference i a) := by
  refine (effectiveNext_alongside cached same i).bind fun found => ?_
  rcases found with _ | ⟨selected, conflict⟩
  · exact alongside_pure
  · refine crlOrder_answered.alongside.bind fun order => ?_
    cases a.selected with
    | none => exact alongside_pure
    | some _ =>
      exact alongside_ite (fun _ => alongside_pure) fun _ =>
        alongside_ite (fun _ => alongside_pure) fun _ => alongside_pure

theorem crlLatest_alongside (wantsConflict : Bool) :
    Alongside R (crlLatest c signer reference wantsConflict)
      (crlLatest (c.vary scopes hasCache cacheStore) signer reference wantsConflict) := by
  refine (alongside_forRange (fun i a => latestStep_alongside cached same i a) 0 c.records.length
    ⟨none, false⟩).bind fun turn => ?_
  rcases turn with ⟨selected, conflict⟩ | _
  · cases selected with
    | some latest => exact alongside_guard fun _ => alongside_pure
    | none => exact alongside_throw
  · exact alongside_throw

theorem evaluateStep_alongside (query : Query N) (latest : Selected) (i : Nat)
    (a : Option Applied) : Alongside R (evaluateStep c signer reference query latest i a)
      (evaluateStep (c.vary scopes hasCache cacheStore) signer reference query latest i a) := by
  refine (effectiveNext_alongside cached same i).bind fun found => ?_
  rcases found with _ | ⟨selected, conflict⟩
  · exact alongside_pure
  · refine crlOrder_answered.alongside.bind fun order => alongside_ite (fun _ => alongside_pure) fun _ =>
      alongside_guard fun _ => ?_
    refine crlApply_answered.trial.alongside.bind fun outcome => ?_
    rcases outcome with e | candidate
    · cases e <;> first | exact alongside_pure | exact alongside_throw
    · refine record_answered.alongside.bind fun effective => ?_
      cases a with
      | none => exact alongside_pure
      | some chosen => exact applyAgain_answered.alongside.bind fun _ => alongside_pure

theorem scopeEvaluate_alongside (query : Query N) (evidence : Evidence) (preference : Bool) :
    Alongside R (scopeEvaluate c signer reference query evidence preference)
      (scopeEvaluate (c.vary scopes hasCache cacheStore) signer reference query evidence
        preference) := by
  have first : Alongside R (evaluateFirst c signer reference evidence preference)
      (evaluateFirst (c.vary scopes hasCache cacheStore) signer reference evidence preference) :=
    alongside_lift.bind fun status => alongside_guard fun _ =>
      crlLatest_alongside cached same preference
  have second (latest : Selected × Bool) :
      Alongside R (evaluateLatest c signer reference query evidence latest)
        (evaluateLatest (c.vary scopes hasCache cacheStore) signer reference query evidence latest) := by
    refine alongside_guard fun _ => ?_
    refine (alongside_forRange (fun i a => evaluateStep_alongside cached same query latest.1 i a) 0
      c.records.length none).bind fun turn => ?_
    cases turn with
    | next a => exact alongside_lift
    | leave _ => exact alongside_throw
  refine first.trial.bind fun outcome => ?_
  rcases outcome with e | latest
  · exact alongside_pure
  · refine (second latest).trial.bind fun outcome => ?_
    rcases outcome with e | added
    · exact alongside_pure
    · exact alongside_pure

end

end

end TinyCrypto.Crl
