import TinyCrypto.Piv.LinkSafety
import TinyCrypto.Piv.ResponseRead
import TinyCrypto.Piv.SessionSafety

/-! # Runs of a link

The guarantees of a link in every state that any operations reach against any
card. A lost session stays lost until the application unsecures the link, or
initializes it again.
-/

namespace TinyCrypto.Piv

open Apdu Library

section

variable {p : LinkPrimitives} {card : Card}

theorem channelFits_errors {sizeMax : Nat} {format : Format} {channel : Channel} {nc ne : Nat} :
    channelFits sizeMax format channel nc ne = .ok ∨
      channelFits sizeMax format channel nc ne = .argument ∨
      channelFits sizeMax format channel nc ne = .limit := by
  unfold channelFits
  split
  · unfold chainCheck
    extract_lets fragments last largest
    split <;> simp
  · unfold formGet
    split
    · rename_i e failed
      split at failed
      · simp_all
      split at failed
      · cases failed
      split at failed
      · simp_all
      split at failed
      · simp_all
      · cases failed
    · split <;> simp

variable {command : Command} {channel : Channel}

variable {arguments : Bool} {buffer : Bytes} {ciphertextLength : Nat}

theorem commandFits_errors {link : Link} {e : Result}
    (refused : commandFits p link channel arguments command = .error e) :
    e = .argument ∨ e = .limit := by
  unfold commandFits at refused
  split at refused
  · simp_all
  · rename_i ciphertextLength fieldLength _
    split at refused
    · simp_all
    split at refused
    · simp_all
    rcases @channelFits_errors p.crypto.sizeMax .short channel fieldLength shortMaxNe with
      fits | fits | fits
    · simp [fits, channelResult] at refused
    · rw [fits] at refused
      simp only [channelResult] at refused
      cases refused
      exact .inl rfl
    · rw [fits] at refused
      simp only [channelResult] at refused
      cases refused
      exact .inr rfl

/-- The command was protected, and the card answered it with status 9000 and
    an authentic response. -/
def Completes (p : LinkPrimitives) (card : Card) (w : World) (channel : Channel)
    (session : Session) (command : Command) (ciphertextLength : Nat) (buffer : Bytes) : Prop :=
  ∃ field session' fields,
    commandProtect p session command ciphertextLength = (some field, session') ∧
    (transceiveFormat card p.crypto.sizeMax .short channel w.sent
      ⟨field, shortMaxNe, smCla, command.ins, command.p1, command.p2⟩ buffer).result = .ok ∧
    (transceiveFormat card p.crypto.sizeMax .short channel w.sent
      ⟨field, shortMaxNe, smCla, command.ins, command.p1, command.p2⟩ buffer).response.sw = 0x9000 ∧
    p.responseFields (transceiveFormat card p.crypto.sizeMax .short channel w.sent
      ⟨field, shortMaxNe, smCla, command.ins, command.p1, command.p2⟩ buffer).response.data
        command.ins = some fields ∧
    (responseUnprotect p session' fields).1.status = .ok

variable {w : World}

theorem protectedTransceive_lost {session : Session}
    (incomplete : ¬ Completes p card w channel session command ciphertextLength buffer) :
    ∃ result link sent, result ≠ .ok ∧ Lost link ∧
      protectedTransceive p card w channel session command ciphertextLength buffer =
        (.wiped result buffer, ⟨link, sent⟩) := by
  unfold protectedTransceive
  split
  · exact ⟨_, _, _, by decide, lost_sessionLost _ _, rfl⟩
  rename_i field session' made
  simp only
  split
  · rename_i failed
    exact ⟨_, _, _, by simpa [channelResult_ok] using failed, lost_sessionLost _ _, rfl⟩
  rename_i sent
  split
  · exact ⟨_, _, _, by decide, lost_sessionLost _ _, rfl⟩
  rename_i success
  simp only [protectedAnswer]
  rw [wiped_congr (transceiveFormat_sends _ _ _).1]
  split
  · exact ⟨_, _, _, by decide, lost_sessionLost _ _, rfl⟩
  rename_i fields read
  split
  · rename_i authentic
    refine absurd ⟨field, session', fields, made, ?_, ?_, read, authentic⟩ incomplete
    · simpa using sent
    · simpa using success
  · exact ⟨_, _, _, by decide, lost_sessionLost _ _, rfl⟩

theorem protectedTransceive_completes {session : Session} (bound : w.link.sm.isSome = true)
    (completes : Completes p card w channel session command ciphertextLength buffer) :
    (protectedTransceive p card w channel session command ciphertextLength buffer).1.result = .ok ∧
      SameSecurity w.link
        (protectedTransceive p card w channel session command ciphertextLength buffer).2.link := by
  obtain ⟨field, session', fields, made, sent, success, read, authentic⟩ := completes
  simp only [protectedTransceive, made, sent, success, protectedAnswer, read, authentic]
  simp only [ne_eq, not_true_eq_false, if_false, if_true, true_and]
  exact ⟨rfl, bound.symm, rfl, rfl, rfl, rfl⟩

structure LinkSafe (p : LinkPrimitives) (card : Card) (w : World) : Prop where
  /-- SECURED implies a bound session. -/
  secured : w.link.secured = true → w.link.security = true ∧ w.link.sm.isSome = true
  /-- No operation sends a protected instruction in plaintext. -/
  concealed : w.link.secured = true ∨ w.link.smLost = true →
    ∀ call, Conceals w (w.step p card call).2
  /-- A lost session refuses every protected instruction, whatever is called
      after the loss. -/
  refused : w.link.smLost = true → ∀ newer w', Reaches (World.step p card) w newer w' →
    (∀ e ∈ newer, ¬ Resets e) → ∀ arguments command buffer, smEligible command.ins = true →
      w'.step p card (.transceive arguments command buffer) = (.wiped .refused buffer, w')
  /-- What does not fit is refused with ARGUMENT or LIMIT, nothing is sent and
      the session stays as it is. -/
  checked : w.link.secured = true → ∀ channel, w.link.channel = some channel →
    ∀ arguments command buffer e, smEligible command.ins = true →
      commandFits p w.link channel arguments command = .error e →
      (e = .argument ∨ e = .limit) ∧
        w.step p card (.transceive arguments command buffer) = (.wiped e buffer, w.begun)
  /-- After protection the command is completed, or the session is lost. -/
  after : w.link.secured = true → ∀ channel session, w.link.channel = some channel →
    w.link.sm = some session → ∀ arguments command buffer ciphertextLength,
      smEligible command.ins = true →
      commandFits p w.link channel arguments command = .ok ciphertextLength →
      (Completes p card w channel session command ciphertextLength buffer →
        (w.step p card (.transceive arguments command buffer)).1.result = .ok ∧
          SameSecurity w.link (w.step p card (.transceive arguments command buffer)).2.link) ∧
      (¬ Completes p card w channel session command ciphertextLength buffer →
        (w.step p card (.transceive arguments command buffer)).1.result ≠ .ok ∧
          Lost (w.step p card (.transceive arguments command buffer)).2.link ∧
          (w.step p card (.transceive arguments command buffer)).1.buffer =
            List.replicate buffer.length 0)

theorem step_refused_of_lost (bound : LinkBound w.link) (lost : w.link.smLost = true)
    (eligible : smEligible command.ins = true) (arguments : Bool) (buffer : Bytes) :
    w.step p card (.transceive arguments command buffer) = (.wiped .refused buffer, w) := by
  obtain ⟨-, unsecured, open_⟩ := bound.lost lost
  obtain ⟨channel, held⟩ := Option.isSome_iff_exists.mp open_
  simp only [World.step, held]
  simp [linkTransceive, eligible, unsecured, lost]

theorem reaches_lost (bound : LinkBound w.link) (lost : w.link.smLost = true)
    {newer : List (LinkCall × LinkReply)} {w' : World}
    (reached : Reaches (World.step p card) w newer w') (kept : ∀ e ∈ newer, ¬ Resets e) :
    LinkBound w'.link ∧ w'.link.smLost = true := by
  induction reached with
  | start => exact ⟨bound, lost⟩
  | @call history w' reached c ih =>
    obtain ⟨bound', lost'⟩ := ih fun e member => kept e (List.mem_cons_of_mem _ member)
    obtain ⟨next, still⟩ := @step_bound p card w' bound' c
    exact ⟨next, still (kept _ (List.mem_cons_self ..)) lost'⟩

theorem begun_commandFits : commandFits p w.begun.link channel arguments command =
      commandFits p w.link channel arguments command := rfl

theorem linkSafe_of_bound (bound : LinkBound w.link) : LinkSafe p card w := by
  have transceive : w.link.secured = true → ∀ channel session, w.link.channel = some channel →
      w.link.sm = some session → ∀ arguments command buffer, smEligible command.ins = true →
      w.step p card (.transceive arguments command buffer) = finishTransceive
          (smTransceive p card w.begun channel session arguments command buffer) := by
    intro secured channel session held session' arguments command buffer eligible
    obtain ⟨installed, -⟩ := bound.secured secured
    simp [World.step, held, linkTransceive, eligible, secured, installed, session', World.begun]
  refine ⟨bound.secured, step_conceals bound, ?_, ?_, ?_⟩
  · intro lost newer w' reached kept arguments command buffer eligible
    obtain ⟨bound', lost'⟩ := reaches_lost bound lost reached kept
    exact step_refused_of_lost bound' lost' eligible arguments buffer
  · intro secured channel held arguments command buffer e eligible refused
    obtain ⟨-, some_⟩ := bound.secured secured
    obtain ⟨session, session'⟩ := Option.isSome_iff_exists.mp some_
    have errors := commandFits_errors refused
    refine ⟨errors, ?_⟩
    rw [transceive secured channel session held session' arguments command buffer eligible]
    simp only [smTransceive, begun_commandFits, refused]
    rcases errors with rfl | rfl <;> simp [finishTransceive, LinkReply.early, LinkReply.wiped]
  · intro secured channel session held session' arguments command buffer n eligible fits
    rw [transceive secured channel session held session' arguments command buffer eligible]
    simp only [smTransceive, begun_commandFits, fits]
    refine ⟨?_, ?_⟩
    · intro completes
      obtain ⟨answered, same⟩ := protectedTransceive_completes
        (w := w.begun) (by simp [World.begun, session']) completes
      simp only [finishTransceive, answered, if_true, true_and]
      exact ⟨same.security, same.sm, same.secured, same.smLost, same.vci, same.pinVerified⟩
    · intro incomplete
      obtain ⟨result, link, sent, failed, lost, same⟩ :=
        protectedTransceive_lost (w := w.begun) incomplete
      have finished : finishTransceive (.wiped result buffer, ⟨link, sent⟩) =
          (.wiped result buffer, ⟨link, sent⟩) := by
        simp [finishTransceive, LinkReply.wiped, failed, lost.security]
      rw [same, finished]
      exact ⟨failed, lost, rfl⟩

end

/-- In every state that link operations reach from a zero-initialized link, for
    any card. -/
def NeverDowngrades (p : LinkPrimitives) (card : Card) : Prop :=
  ∀ history w, Reaches (World.step p card) ⟨.zero, []⟩ history w → LinkSafe p card w

theorem link_never_downgrades (p : LinkPrimitives) (card : Card) : NeverDowngrades p card := by
  intro history w reached
  refine linkSafe_of_bound ?_
  induction reached with
  | start => exact ⟨by simp [Link.zero], by simp [Link.zero], by simp [Link.zero]⟩
  | call _ c ih => exact (step_bound ih c).1

/-- Primitives for fixed runs, over `plainCrypto`. -/
def plainLink : LinkPrimitives where
  crypto := plainCrypto
  responseFields := responseRead (isoReading false 8)
  applicationRead := fun _ _ _ => .ok ⟨0, 0x27, 0, 0⟩
  peerRead := fun _ _ => true
  aid := fun _ => [0xa0]
  extendedScratchBytes := 300
  commandMaxNc := 16

def mutedCard : Card := fun sent _ =>
  if (sent.headD []).getD 0 0 = smCla then ⟨false, [], 0⟩ else ⟨true, [0x90, 0x00], 2⟩

def plainGetData : LinkCall := .transceive true ⟨[0x5c], 0, 0x00, insGetData, 0x3f, 0xff⟩ [0, 0]

def plainInit : LinkCall := .init true ⟨.short, false, 20, 0, 0⟩ 300

def losingCalls : List LinkCall := [plainInit, .select true .piv false [0, 0],
    .keyRequest true 0x27 (some (plainEstablished.session, [0x7c])) [0, 0], .secure true 300,
    plainGetData]

/-- The link of a lost session, initialized again, sends GET DATA in plaintext. -/
theorem init_ends_lost_session :
    (runFrom (World.step plainLink mutedCard) [] ⟨.zero, []⟩ losingCalls).2.link.smLost = true ∧
      (World.step plainLink mutedCard
        (runFrom (World.step plainLink mutedCard) [] ⟨.zero, []⟩ losingCalls).2
        plainGetData).1.result = .refused ∧
      ((runFrom (World.step plainLink mutedCard) [] ⟨.zero, []⟩
        (losingCalls ++ [plainInit, plainGetData])).1.headD
          (.unsecure, .early .error [])).2.result = .ok ∧
      (runFrom (World.step plainLink mutedCard) [] ⟨.zero, []⟩
        (losingCalls ++ [plainInit, plainGetData])).2.sent.head? =
        some [0x00, 0xcb, 0x3f, 0xff, 0x01, 0x5c] := by
  decide

end TinyCrypto.Piv
