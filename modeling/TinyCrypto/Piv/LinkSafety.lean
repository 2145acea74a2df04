import TinyCrypto.Piv.Link

/-! # Links never downgrade

A link that is secured, or that lost its session, sends no protected
instruction in plaintext. The security state changes on the failure paths of
six functions; all of them come down to unbinding, and losing the session.
-/

namespace TinyCrypto.Piv

open Apdu Library

section

variable (link : Link)

@[simp] theorem linkUnbind_security : (linkUnbind link).security = false := by
  unfold linkUnbind smUnbind
  cases h : link.security <;> simp [h]

@[simp] theorem linkUnbind_secured : (linkUnbind link).secured = false := rfl

@[simp] theorem linkUnbind_smLost : (linkUnbind link).smLost = link.smLost := by
  unfold linkUnbind smUnbind
  cases link.security <;> rfl

@[simp] theorem linkUnbind_channel : (linkUnbind link).channel = link.channel := by
  unfold linkUnbind smUnbind
  cases link.security <;> rfl

end

structure LinkBound (link : Link) : Prop where
  secured : link.secured = true → link.security = true ∧ link.sm.isSome = true
  bound : link.security = true → link.sm.isSome = true ∧ link.channel.isSome = true
  lost : link.smLost = true →
    link.security = false ∧ link.secured = false ∧ link.channel.isSome = true

/-- Unbound, unsecured and marked as lost, without VCI and PIN status. -/
structure Lost (link : Link) : Prop where
  smLost : link.smLost = true
  security : link.security = false
  secured : link.secured = false
  vci : link.vci = false
  pinVerified : link.pinVerified = false

theorem lost_linkSessionLost (link : Link) : Lost (linkSessionLost link) :=
  ⟨rfl, by simp [linkSessionLost], rfl, rfl, rfl⟩

theorem lost_sessionLost (link : Link) (status : Nat) : Lost (sessionLost link status) :=
  ⟨rfl, by simp [sessionLost, linkSessionLost], rfl, rfl, rfl⟩

@[simp] theorem sessionLost_channel (link : Link) (status : Nat) :
    (sessionLost link status).channel = link.channel := by
  simp [sessionLost, linkSessionLost]

structure SameSecurity (link link' : Link) : Prop where
  security : link'.security = link.security
  sm : link'.sm.isSome = link.sm.isSome
  secured : link'.secured = link.secured
  smLost : link'.smLost = link.smLost
  vci : link'.vci = link.vci
  pinVerified : link'.pinVerified = link.pinVerified

/-- A transmitted command of an instruction that secure messaging protects,
    without secure messaging. -/
def InPlaintext (bytes : Bytes) : Prop :=
  smEligible (bytes.getD 1 0) = true ∧ bytes.getD 0 0 &&& claSmMask = 0

def Conceals (w w' : World) : Prop :=
  ∃ new, w'.sent = new ++ w.sent ∧ ∀ bytes ∈ new, ¬ InPlaintext bytes

theorem stepOf_unprotected {command : Command} {bytes : Bytes}
    (plain : smEligible command.ins = false) (step : StepOf command bytes) :
    ¬ InPlaintext bytes := by
  rintro ⟨eligible, -⟩
  rcases step with get | ⟨same, -⟩
  · rw [get] at eligible
    exact absurd eligible (by decide)
  · rw [same, plain] at eligible
    cases eligible

theorem stepOf_protected {command : Command} {bytes : Bytes} (cla : command.cla = smCla)
    (step : StepOf command bytes) : ¬ InPlaintext bytes := by
  rintro ⟨eligible, plain⟩
  rcases step with get | ⟨-, same | same⟩
  · rw [get] at eligible
    exact absurd eligible (by decide)
  · rw [same, cla] at plain
    exact absurd plain (by decide)
  · rw [same, cla] at plain
    exact absurd plain (by decide)

inductive Exchanged (w : World) (buffer : Bytes) : LinkReply × World → Prop
  /-- It was completed, or failed without touching the session. -/
  | kept {reply : LinkReply} {w' : World} (same : SameSecurity w.link w'.link)
      (channel : w'.link.channel.isSome = true)
      (size : reply.buffer.length = buffer.length) : Exchanged w buffer (reply, w')
  /-- It failed and the session went with it. -/
  | lost {result : Result} {w' : World} (failed : result ≠ .ok) (lost : Lost w'.link)
      (channel : w'.link.channel.isSome = true) : Exchanged w buffer (.wiped result buffer, w')

section

variable {p : LinkPrimitives} {card : Card}

variable {result : Result} {buffer' : Bytes} {ciphertextLength : Nat} {link' link'' : Link}
  {application : Application} {twicCompatible : Bool}

theorem channelResult_ok : channelResult result = .ok ↔ result = .ok := by
  cases result <;> simp [channelResult]

theorem wiped_congr {buffer : Bytes} (size : buffer'.length = buffer.length) :
    LinkReply.wiped result buffer' = LinkReply.wiped result buffer := by
  simp [LinkReply.wiped, size]

variable {w : World}

variable {session : Session}

theorem protectedAnswer_exchanged {link : Link} {ins : UInt8} {answer : Response} {buffer : Bytes}
    {sent : List Bytes} (same : SameSecurity w.link link) (bound : link.sm.isSome = true)
    (channel : link.channel.isSome = true) (size : buffer'.length = buffer.length) :
    Exchanged w buffer ((protectedAnswer p link session ins answer buffer').1,
      ⟨(protectedAnswer p link session ins answer buffer').2, sent⟩) := by
  unfold protectedAnswer
  split
  · rw [wiped_congr size]
    exact .lost (by decide) (lost_sessionLost _ _) (by simpa using channel)
  · split
    split
    · refine .kept ⟨same.security, ?_, same.secured, same.smLost, same.vci, same.pinVerified⟩
        channel size
      simpa [bound] using same.sm
    · rw [wiped_congr size]
      exact .lost (by decide) (lost_sessionLost _ _) (by simpa using channel)

variable {buffer : Bytes} {channel : Channel} {command : Command}

theorem protectedTransceive_exchanged (bound : w.link.sm.isSome = true)
    (open_ : w.link.channel.isSome = true) : Exchanged w buffer
      (protectedTransceive p card w channel session command ciphertextLength buffer) := by
  unfold protectedTransceive
  split
  · exact .lost (by decide) (lost_sessionLost _ _) (by simpa using open_)
  · simp only
    split
    · rename_i failed
      exact .lost (by simpa [channelResult_ok] using failed) (lost_sessionLost _ _) (by simp)
    split
    · exact .lost (by decide) (lost_sessionLost _ _) (by simp)
    · refine protectedAnswer_exchanged ⟨rfl, ?_, rfl, rfl, rfl, rfl⟩ rfl rfl
        (transceiveFormat_sends _ _ _).1
      simp [bound]

theorem protectedTransceive_conceals :
    Conceals w (protectedTransceive p card w channel session command ciphertextLength buffer).2 := by
  unfold protectedTransceive
  split
  · exact ⟨[], rfl, by simp⟩
  · rename_i field session' _
    obtain ⟨new, sent, steps⟩ := (@transceiveFormat_sends card p.crypto.sizeMax .short
      ⟨field, shortMaxNe, smCla, command.ins, command.p1, command.p2⟩ channel w.sent buffer).2
    have conceals : ∀ bytes ∈ new, ¬ InPlaintext bytes :=
      fun bytes member => stepOf_protected rfl (steps bytes member)
    simp only
    split
    · exact ⟨new, sent, conceals⟩
    split
    · exact ⟨new, sent, conceals⟩
    · exact ⟨new, sent, conceals⟩

variable {outcome : LinkReply × World}

theorem finishTransceive_exchanged (exchanged : Exchanged w buffer outcome) :
    Exchanged w buffer (finishTransceive outcome) ∧ ((finishTransceive outcome).1.result ≠ .ok →
        (finishTransceive outcome).1.buffer = List.replicate buffer.length 0) := by
  cases exchanged with
  | @kept reply w' same channel size =>
    unfold finishTransceive
    simp only
    split
    · rename_i completed
      refine ⟨.kept ⟨same.security, same.sm, same.secured, same.smLost, same.vci,
        same.pinVerified⟩ channel size, ?_⟩
      intro failed
      exact absurd completed failed
    · rename_i failed
      rw [wiped_congr size]
      refine ⟨?_, fun _ => rfl⟩
      split
      · refine .lost failed (lost_linkSessionLost _) ?_
        simpa [linkSessionLost] using channel
      · exact .kept same channel (by simp [LinkReply.wiped])
  | @lost result w' failed lost channel =>
    have finished : finishTransceive (.wiped result buffer, w') = (.wiped result buffer, w') := by
      simp [finishTransceive, LinkReply.wiped, failed, lost.security]
    rw [finished]
    exact ⟨.lost failed lost channel, fun _ => rfl⟩

@[simp] theorem finishTransceive_sent (outcome : LinkReply × World) :
    (finishTransceive outcome).2.sent = outcome.2.sent := by
  unfold finishTransceive
  simp only
  split
  · rfl
  · split <;> rfl

theorem plainTransceive_exchanged {channel : Channel} {command : Command} {buffer : Bytes} :
    Exchanged w buffer (plainTransceive p card w channel command buffer) :=
  .kept ⟨rfl, rfl, rfl, rfl, rfl, rfl⟩ rfl (transceiveFormat_sends _ _ _).1

theorem plainTransceive_conceals {channel : Channel} {command : Command} {buffer : Bytes}
    (plain : smEligible command.ins = false) :
    Conceals w (plainTransceive p card w channel command buffer).2 := by
  obtain ⟨new, sent, steps⟩ :=
    (@transceiveFormat_sends card p.crypto.sizeMax channel.format command channel w.sent buffer).2
  exact ⟨new, sent, fun bytes member => stepOf_unprotected plain (steps bytes member)⟩

theorem smTransceive_exchanged {channel : Channel} {session : Session} {arguments : Bool}
    {command : Command} {buffer : Bytes} (bound : w.link.sm.isSome = true)
    (open_ : w.link.channel.isSome = true) :
    Exchanged w buffer (smTransceive p card w channel session arguments command buffer) := by
  unfold smTransceive
  split
  · exact .kept ⟨rfl, rfl, rfl, rfl, rfl, rfl⟩ open_ rfl
  · exact protectedTransceive_exchanged bound open_

theorem smTransceive_conceals {channel : Channel} {session : Session} {arguments : Bool}
    {command : Command} {buffer : Bytes} :
    Conceals w (smTransceive p card w channel session arguments command buffer).2 := by
  unfold smTransceive
  split
  · exact ⟨[], rfl, by simp⟩
  · exact protectedTransceive_conceals

def World.begun (w : World) : World := { w with link := { w.link with status := 0 } }

theorem Exchanged.of_begun (exchanged : Exchanged w.begun buffer outcome) :
    Exchanged w buffer outcome := by
  cases exchanged with
  | kept same channel size =>
    exact .kept ⟨same.security, same.sm, same.secured, same.smLost, same.vci,
      same.pinVerified⟩ channel size
  | lost failed lost channel => exact .lost failed lost channel

variable {arguments : Bool}

/-- The three ways through `tc_piv_link_transceive`. -/
theorem linkTransceive_eq (bound : LinkBound w.link) :
    (smEligible command.ins = true ∧ w.link.secured = false ∧ w.link.smLost = true ∧
      linkTransceive p card w channel arguments command buffer = (.wiped .refused buffer, w)) ∨
    (∃ session, smEligible command.ins = true ∧ w.link.secured = true ∧ w.link.sm = some session ∧
      linkTransceive p card w channel arguments command buffer =
        finishTransceive (smTransceive p card w.begun channel session arguments command buffer)) ∨
    ((smEligible command.ins = false ∨ w.link.secured = false ∧ w.link.smLost = false) ∧
      linkTransceive p card w channel arguments command buffer =
        finishTransceive (plainTransceive p card w.begun channel command buffer)) := by
  unfold linkTransceive
  cases hEligible : smEligible command.ins with
  | false => exact .inr (.inr ⟨.inl rfl, by simp [World.begun]⟩)
  | true =>
    cases hSecured : w.link.secured with
    | true =>
      obtain ⟨installed, some_⟩ := bound.secured hSecured
      obtain ⟨session, held⟩ := Option.isSome_iff_exists.mp some_
      refine .inr (.inl ⟨session, rfl, rfl, held, ?_⟩)
      simp [hSecured, installed, held, World.begun]
    | false =>
      cases hLost : w.link.smLost with
      | true => exact .inl ⟨rfl, rfl, rfl, by simp⟩
      | false => exact .inr (.inr ⟨.inr ⟨rfl, rfl⟩, by simp [hSecured, hLost, World.begun]⟩)

theorem linkTransceive_exchanged {channel : Channel} {arguments : Bool} {command : Command}
    {buffer : Bytes} (bound : LinkBound w.link) (open_ : w.link.channel.isSome = true) :
    Exchanged w buffer (linkTransceive p card w channel arguments command buffer) ∧
      ((linkTransceive p card w channel arguments command buffer).1.result ≠ .ok →
        (linkTransceive p card w channel arguments command buffer).1.buffer =
          List.replicate buffer.length 0) := by
  rcases linkTransceive_eq bound with ⟨-, -, -, same⟩ | ⟨session, -, -, held, same⟩ | ⟨-, same⟩
  · rw [same]
    exact ⟨.kept ⟨rfl, rfl, rfl, rfl, rfl, rfl⟩ open_ (by simp [LinkReply.wiped]), fun _ => rfl⟩
  · rw [same]
    obtain ⟨exchanged, wiped⟩ := finishTransceive_exchanged
      (@smTransceive_exchanged p card w.begun channel session arguments command buffer
        (by simp [World.begun, held]) open_)
    exact ⟨exchanged.of_begun, wiped⟩
  · rw [same]
    obtain ⟨exchanged, wiped⟩ := finishTransceive_exchanged
      (@plainTransceive_exchanged p card w.begun channel command buffer)
    exact ⟨exchanged.of_begun, wiped⟩

theorem linkTransceive_conceals {channel : Channel} {arguments : Bool} {command : Command}
    {buffer : Bytes} (bound : LinkBound w.link)
    (guarded : w.link.secured = true ∨ w.link.smLost = true) :
    Conceals w (linkTransceive p card w channel arguments command buffer).2 := by
  rcases linkTransceive_eq bound with
    ⟨-, -, -, same⟩ | ⟨session, -, -, held, same⟩ | ⟨plain, same⟩
  · rw [same]
    exact ⟨[], rfl, by simp⟩
  · rw [same]
    obtain ⟨new, sent, conceals⟩ :=
      @smTransceive_conceals p card w.begun channel session arguments command buffer
    exact ⟨new, by simpa [World.begun] using sent, conceals⟩
  · have plain : smEligible command.ins = false := by
      rcases plain with plain | ⟨open_, kept⟩
      · exact plain
      · simp [open_, kept] at guarded
    rw [same]
    obtain ⟨new, sent, conceals⟩ :=
      @plainTransceive_conceals p card w.begun channel command buffer plain
    exact ⟨new, by simpa [World.begun] using sent, conceals⟩

structure Keeps (link link' : Link) : Prop where
  bound : LinkBound link'
  lost : link.smLost = true → link'.smLost = true

theorem Exchanged.keeps (bound : LinkBound w.link) (exchanged : Exchanged w buffer outcome) :
    Keeps w.link outcome.2.link := by
  cases exchanged with
  | kept same channel size =>
    refine ⟨⟨?_, ?_, ?_⟩, by rw [same.smLost]; exact id⟩
    · rw [same.secured, same.security, same.sm]
      exact bound.secured
    · rw [same.security, same.sm]
      exact fun installed => ⟨(bound.bound installed).1, channel⟩
    · rw [same.smLost, same.security, same.secured]
      exact fun lost => ⟨(bound.lost lost).1, (bound.lost lost).2.1, channel⟩
  | lost failed lost channel =>
    refine ⟨⟨?_, ?_, fun _ => ⟨lost.security, lost.secured, channel⟩⟩, fun _ => lost.smLost⟩
    · simp [lost.secured]
    · simp [lost.security]

theorem Keeps.of_same {link : Link} (keeps : Keeps link link') (same : SameSecurity link' link'')
    (channel : link''.channel.isSome = link'.channel.isSome) : Keeps link link'' := by
  refine ⟨⟨?_, ?_, ?_⟩, ?_⟩
  · rw [same.secured, same.security, same.sm]
    exact keeps.bound.secured
  · rw [same.security, same.sm, channel]
    exact keeps.bound.bound
  · rw [same.smLost, same.security, same.secured, channel]
    exact keeps.bound.lost
  · rw [same.smLost]
    exact keeps.lost

theorem keeps_unbind {link : Link} (keeps : Keeps link link') (security : link''.security = false)
    (secured : link''.secured = false) (smLost : link''.smLost = link'.smLost)
    (channel : link''.channel = link'.channel) : Keeps link link'' := by
  refine ⟨⟨by simp [secured], by simp [security], ?_⟩, ?_⟩
  · rw [smLost, channel]
    exact fun lost => ⟨security, secured, (keeps.bound.lost lost).2.2⟩
  · rw [smLost]
    exact keeps.lost

theorem selectionApply_keeps {link link' : Link} {application : Application}
    {selected : Selected} (keeps : Keeps link link') :
    Keeps link (selectionApply link' application selected).2 := by
  unfold selectionApply
  split
  · exact keeps
  · rename_i channel held
    split
    · exact keeps.of_same ⟨rfl, rfl, rfl, rfl, rfl, rfl⟩ (by simp [held])
    · exact keeps
    · exact keeps

theorem selectAnswer_keeps {link : Link} {reply : LinkReply} (keeps : Keeps link link') :
    Keeps link (selectAnswer p link' application twicCompatible reply).2 := by
  unfold selectAnswer
  split
  · exact keeps.of_same ⟨rfl, rfl, rfl, rfl, rfl, rfl⟩ rfl
  split
  · exact keeps.of_same ⟨rfl, rfl, rfl, rfl, rfl, rfl⟩ rfl
  · rename_i selected _
    have applied := @selectionApply_keeps link link' application selected keeps
    split
    · rename_i applied' same
      rw [same] at applied
      exact applied
    · rename_i applied' _ same
      rw [same] at applied
      exact applied.of_same ⟨rfl, rfl, rfl, rfl, rfl, rfl⟩ rfl

theorem select_keeps {arguments : Bool} {application : Application} {twicCompatible : Bool}
    {buffer : Bytes} (bound : LinkBound w.link) :
    Keeps w.link (select p card w arguments application twicCompatible buffer).2.link := by
  unfold select
  split
  · exact ⟨bound, id⟩
  · rename_i channel held
    split
    · exact ⟨bound, id⟩
    have exchanged := (@linkTransceive_exchanged p card w channel true
      ⟨p.aid application, shortMaxNe, 0x00, 0xa4, 0x04, 0x00⟩ buffer bound (by simp [held])).1
    simp only
    generalize linkTransceive p card w channel true
      ⟨p.aid application, shortMaxNe, 0x00, 0xa4, 0x04, 0x00⟩ buffer = outcome at exchanged ⊢
    obtain ⟨reply, w'⟩ := outcome
    have keeps := exchanged.keeps bound
    have reset : Keeps w.link (selectionReset w'.link) :=
      keeps_unbind keeps (by simp [selectionReset]) (by simp [selectionReset])
        (by simp [selectionReset]) (by simp [selectionReset])
    split
    · split
      · exact reset
      · exact keeps
    · split
      · exact selectAnswer_keeps reset
      · exact selectAnswer_keeps keeps

theorem keyRequest_keeps {arguments : Bool} {suite : UInt8} {began : Option (Session × Bytes)}
    {buffer : Bytes} (bound : LinkBound w.link) :
    Keeps w.link (keyRequest p card w arguments suite began buffer).2.link := by
  unfold keyRequest
  split
  · exact ⟨bound, id⟩
  rename_i channel held
  split
  · exact ⟨bound, id⟩
  split
  · exact ⟨bound, id⟩
  split
  · exact ⟨bound, id⟩
  rename_i open_
  simp only [Bool.or_eq_true, decide_eq_true_eq, not_or, Bool.not_eq_true] at open_
  have unbound : Keeps w.link { linkUnbind w.link with vci := false, pinVerified := false } :=
    keeps_unbind ⟨bound, id⟩ (by simp) (by simp) (by simp) (by simp)
  simp only
  split
  · exact unbound.of_same ⟨rfl, rfl, rfl, rfl, rfl, rfl⟩ rfl
  rename_i session data
  have exchanged := (@linkTransceive_exchanged p card
    { w with link := { linkUnbind w.link with vci := false, pinVerified := false } } channel true
    ⟨data, shortMaxNe, 0x00, insGeneralAuthenticate, suite, 0x04⟩ buffer unbound.bound
    (by simp [held])).1
  generalize linkTransceive p card _ channel true
    ⟨data, shortMaxNe, 0x00, insGeneralAuthenticate, suite, 0x04⟩ buffer = outcome at exchanged ⊢
  obtain ⟨reply, w'⟩ := outcome
  have keeps : Keeps w.link w'.link := by
    have inner := exchanged.keeps unbound.bound
    refine ⟨inner.bound, ?_⟩
    intro lost
    simp [open_.2] at lost
  split
  · exact keeps.of_same ⟨rfl, rfl, rfl, rfl, rfl, rfl⟩ rfl
  rename_i completed
  split
  · exact keeps.of_same ⟨rfl, rfl, rfl, rfl, rfl, rfl⟩ rfl
  split
  · exact keeps.of_same ⟨rfl, rfl, rfl, rfl, rfl, rfl⟩ rfl
  · cases exchanged with
    | lost failed => exact absurd failed completed
    | kept same channel size =>
      have found : w'.link.smLost = false := by simpa [open_.2] using same.smLost
      refine ⟨⟨fun _ => ⟨rfl, rfl⟩, fun _ => ⟨rfl, channel⟩, ?_⟩, ?_⟩
      · simp [found]
      · simp [open_.2]

theorem keyRequest_conceals {suite : UInt8} {began : Option (Session × Bytes)}
    (guarded : w.link.secured = true ∨ w.link.smLost = true) :
    Conceals w (keyRequest p card w arguments suite began buffer).2 := by
  unfold keyRequest
  split
  · exact ⟨[], rfl, by simp⟩
  split
  · exact ⟨[], rfl, by simp⟩
  split
  · exact ⟨[], rfl, by simp⟩
  split
  · exact ⟨[], rfl, by simp⟩
  rename_i open_
  rcases guarded with guarded | guarded <;> simp [guarded] at open_

theorem select_conceals (bound : LinkBound w.link)
    (guarded : w.link.secured = true ∨ w.link.smLost = true) :
    Conceals w (select p card w arguments application twicCompatible buffer).2 := by
  unfold select
  split
  · exact ⟨[], rfl, by simp⟩
  rename_i channel held
  split
  · exact ⟨[], rfl, by simp⟩
  have conceals := @linkTransceive_conceals p card w channel true
    ⟨p.aid application, shortMaxNe, 0x00, 0xa4, 0x04, 0x00⟩ buffer bound guarded
  simp only
  generalize linkTransceive p card w channel true
    ⟨p.aid application, shortMaxNe, 0x00, 0xa4, 0x04, 0x00⟩ buffer = outcome at conceals ⊢
  obtain ⟨reply, w'⟩ := outcome
  split
  · exact conceals
  · exact conceals

def Resets (e : LinkCall × LinkReply) : Prop := match e.1 with
  | .unsecure => True
  | .init _ _ _ => e.2.result = .ok
  | _ => False

theorem step_bound (bound : LinkBound w.link) (call : LinkCall) :
    LinkBound (w.step p card call).2.link ∧
      (¬ Resets (call, (w.step p card call).1) → w.link.smLost = true →
        (w.step p card call).2.link.smLost = true) := by
  cases call with
  | init arguments options scratchCapacity =>
    simp only [World.step, linkInit]
    split
    · exact ⟨bound, fun _ => id⟩
    split
    · exact ⟨bound, fun _ => id⟩
    · refine ⟨⟨?_, ?_, ?_⟩, ?_⟩
      · simp [Link.zero]
      · simp [Link.zero]
      · simp [Link.zero]
      · intro kept
        exact absurd rfl kept
  | select arguments application twicCompatible buffer =>
    obtain ⟨bound', lost⟩ :=
      @select_keeps p card w arguments application twicCompatible buffer bound
    exact ⟨bound', fun _ => lost⟩
  | keyRequest arguments suite began buffer =>
    obtain ⟨bound', lost⟩ := @keyRequest_keeps p card w arguments suite began buffer bound
    exact ⟨bound', fun _ => lost⟩
  | session session =>
    refine ⟨⟨?_, ?_, bound.lost⟩, fun _ => id⟩
    · intro secured
      exact ⟨(bound.secured secured).1, by simpa [World.step] using (bound.secured secured).2⟩
    · intro installed
      exact ⟨by simpa [World.step] using (bound.bound installed).1, (bound.bound installed).2⟩
  | marks => exact ⟨⟨bound.secured, bound.bound, bound.lost⟩, fun _ => id⟩
  | secure arguments scratchCapacity =>
    simp only [World.step, secure]
    split
    · exact ⟨bound, fun _ => id⟩
    · rename_i ready
      simp only [Bool.or_eq_true, not_or, Bool.not_eq_true, Bool.not_eq_eq_eq_not,
        Bool.not_true] at ready
      have installed : w.link.security = true := by simpa using ready.1.1.2
      refine ⟨⟨fun _ => ⟨installed, (bound.bound installed).1⟩, bound.bound, ?_⟩, fun _ => id⟩
      intro lost
      have := (bound.lost lost).1
      rw [installed] at this
      cases this
  | unsecure =>
    refine ⟨⟨?_, ?_, ?_⟩, fun kept => absurd trivial kept⟩
    · simp [World.step, unsecure]
    · simp [World.step, unsecure]
    · simp [World.step, unsecure]
  | transceive arguments command buffer =>
    simp only [World.step]
    split
    · exact ⟨bound, fun _ => id⟩
    · rename_i channel held
      have exchanged := (@linkTransceive_exchanged p card w channel arguments command buffer bound
          (by simp [held])).1
      obtain ⟨bound', lost⟩ := exchanged.keeps bound
      exact ⟨bound', fun _ => lost⟩

theorem step_conceals (bound : LinkBound w.link)
    (guarded : w.link.secured = true ∨ w.link.smLost = true) (call : LinkCall) :
    Conceals w (w.step p card call).2 := by
  cases call with
  | init arguments options scratchCapacity =>
    simp only [World.step, linkInit]
    split
    · exact ⟨[], rfl, by simp⟩
    · split <;> exact ⟨[], rfl, by simp⟩
  | select => exact select_conceals bound guarded
  | keyRequest => exact keyRequest_conceals guarded
  | session => exact ⟨[], rfl, by simp⟩
  | marks => exact ⟨[], rfl, by simp⟩
  | secure arguments scratchCapacity =>
    simp only [World.step, secure]
    split <;> exact ⟨[], rfl, by simp⟩
  | unsecure => exact ⟨[], rfl, by simp⟩
  | transceive arguments command buffer =>
    simp only [World.step]
    split
    · exact ⟨[], rfl, by simp⟩
    · exact linkTransceive_conceals bound guarded

end

end TinyCrypto.Piv
