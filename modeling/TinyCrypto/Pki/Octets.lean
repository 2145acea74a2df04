import TinyCrypto.Library.Steady
import TinyCrypto.Tlv.WalkValues

/-! # Octet strings in chunks

`pki_octets_internal.h`: the primitive chunks of a possibly constructed octet
string are visited in order, without flattening it, or joined in scratch storage.
-/

namespace TinyCrypto.Pki

open Tlv
open Library Library.Program Library.Metered

/-- What a build and a caller fix: BER support, the size of `size_t`, the limits and
    the frames. -/
structure Workspace where
  ber : Bool
  sizeT : Nat
  sizeMax : Nat
  limits : Limits
  capacity : Nat

/-- `tc_pki_octets_state` without its constants. -/
structure Visit where
  roots : Nat
  result : Result
  deriving DecidableEq

variable {D : Type}

/-- The header checks of `tc_pki_octets_visit`. -/
def octetHeader (profile : Profile) (tag : UInt8) (h : ProfileHeader) : Bool :=
  (h.tag = [tag] || h.tag = [tag ||| 0x20]) && !(profile = .der && h.constructed)

def visitResult (walked : Result) (visit : Visit) : Except Result Unit :=
  if walked ≠ .ok then .error walked
  else if visit.roots ≠ 1 then .error .invalid
  else if visit.result ≠ .ok then .error visit.result
  else .ok ()

section

variable (tree : Workspace) (profile : Profile) (rootTag : UInt8)
variable (consume : Bytes → Metered Result D Unit)

/-- `tc_pki_octets_visit`. -/
def octetsVisit (acc : Visit × Budgeted D) (event : Event) : Visit × Budgeted D :=
  let (visit, s) := acc
  if visit.result ≠ .ok then acc
  else
    match event.kind with
    | .begin =>
      let tag := if event.depth ≠ 0 then 4 else rootTag
      let roots := if event.depth = 0 then visit.roots + 1 else visit.roots
      let result := if event.depth = 0 && roots ≠ 1 then .invalid else visit.result
      let valid := event.header.elim false (octetHeader profile tag)
      (⟨roots, if valid then result else .invalid⟩, s)
    | .value =>
      match (consume event.bytes).exec s with
      | (.ok _, s) => (visit, s)
      | (.error e, s) => ({ visit with result := e }, s)
    | .close => acc

/-- `tc_pki_octets_implicit`. -/
def octetsImplicit (encoded : Bytes) : Metered Result D Unit := do
  charge .limit encoded.length
  ExceptT.mk fun s =>
    let (result, events) := walk tree.ber tree.sizeT profile tree.limits tree.capacity encoded
    let (visit, s) := events.foldl (octetsVisit profile rootTag consume) (⟨0, .ok⟩, s)
    (visitResult result visit, s)

def consumeAll : List Bytes → Metered Result D Unit
  | [] => pure ()
  | chunk :: rest => do
    consume chunk
    consumeAll rest

end

/-- `tc_pki_octets_storage` without its constants. `joined` holds what the buffer
    received. -/
structure Storage where
  first : Bytes
  length : Nat
  chunks : Nat
  joined : Bytes
  deriving DecidableEq

/-- The buffer of `tc_pki_octets_store_chunk`, if there is one, takes the bytes. -/
def storeBuffer (buffer : Option Nat) (used : Nat) (bytes : Bytes) : Metered Result Storage Unit :=
  match buffer with
  | none => pure ()
  | some size => do
    if bytes.length > size - used then throw .limit
    charge .limit bytes.length
    update fun state => { state with joined := state.joined ++ bytes }

/-- `tc_pki_octets_store_chunk`, with the size of the buffer if there is one. -/
def storeChunk (sizeMax : Nat) (buffer : Option Nat) (bytes : Bytes) :
    Metered Result Storage Unit := do
  let state ← data
  if bytes.length > sizeMax - state.length then throw .limit
  storeBuffer buffer state.length bytes
  update fun state =>
    { state with
      first := if state.chunks = 0 then bytes else state.first,
      chunks := if bytes.length ≠ 0 && state.chunks < 2 then state.chunks + 1 else state.chunks,
      length := state.length + bytes.length }

/-- The tags that `tc_pki_octets_implicit` takes: primitive, and of one byte. -/
def rootAllowed (rootTag : UInt8) : Bool := rootTag &&& 0x20 = 0 && rootTag &&& 31 ≠ 31

/-- The output of `tc_pki_octets_contiguous`: bytes of the input, or of the scratch. -/
inductive Span where
  | borrowed (bytes : Bytes)
  | joined (bytes : Bytes)
  deriving DecidableEq

def Span.bytes : Span → Bytes
  | .borrowed bytes => bytes
  | .joined bytes => bytes

/-- `tc_pki_octets_contiguous`, with where its output lies. -/
def octetsSpan (tree : Workspace) (profile : Profile) (rootTag : UInt8) (scratch : Nat)
    (encoded : Bytes) : Metered Result D Span := do
  if !rootAllowed rootTag then throw .argument
  let (_, state) ← locally id ⟨[], 0, 0, []⟩
    (octetsImplicit tree profile rootTag (storeChunk tree.sizeMax none) encoded)
  if state.chunks < 2 then return .borrowed state.first
  if state.length > scratch then throw .limit
  let (_, state) ← locally id { state with length := 0 }
    (octetsImplicit tree profile rootTag (storeChunk tree.sizeMax (some state.length)) encoded)
  return .joined state.joined

/-- `tc_pki_octets_contiguous`. -/
def octetsContiguous (tree : Workspace) (profile : Profile) (rootTag : UInt8) (scratch : Nat)
    (encoded : Bytes) : Metered Result D Bytes := do
  let span ← octetsSpan tree profile rootTag scratch encoded
  return span.bytes

mutual

def OctetTree (profile : Profile) (tag : UInt8) : Tree → Prop
  | .primitive h _ _ => octetHeader profile tag h = true
  | .constructed h _ children => octetHeader profile tag h = true ∧ OctetForest profile children

def OctetForest (profile : Profile) : List Tree → Prop
  | [] => True
  | t :: rest => OctetTree profile 4 t ∧ OctetForest profile rest

end

/-- The encoding is an octet string within the limits, and its primitive chunks
    joined are `octets`. -/
def OctetString (tree : Workspace) (profile : Profile) (tag : UInt8) (encoded octets : Bytes) : Prop :=
  config tree.ber profile = .ok ∧ ∃ t, OctetTree profile tag t ∧ t.octets = octets ∧
    Parses tree.sizeT profile tree.limits tree.capacity encoded [.object t]

theorem OctetTree.header {profile : Profile} {tag : UInt8} {t : Tree}
    (shape : OctetTree profile tag t) : octetHeader profile tag t.header = true := by
  cases t with
  | primitive h head value => exact shape
  | constructed h head children => exact shape.1

def InnerBegin (profile : Profile) (e : Event) : Prop :=
  e.kind = .begin → e.depth ≠ 0 ∧ e.header.elim false (octetHeader profile 4) = true

mutual

theorem octetTree_inner {profile : Profile} : (t : Tree) → (offset depth : Nat) →
    OctetTree profile 4 t → ∀ e ∈ t.events offset (depth + 1), InnerBegin profile e
  | .primitive h head value, offset, depth, shape => by
    intro e member
    simp only [Tree.events, List.mem_cons, List.not_mem_nil, or_false] at member
    obtain rfl | rfl := member
    · intro _
      exact ⟨by simp, shape⟩
    · intro kind
      cases kind
  | .constructed h head children, offset, depth, shape => by
    intro e member
    simp only [Tree.events, List.mem_cons, List.mem_append, List.not_mem_nil, or_false]
      at member
    obtain rfl | inner | rfl := member
    · intro _
      exact ⟨by simp, shape.1⟩
    · exact octetForest_inner children _ (depth + 1) shape.2 e inner
    · intro kind
      cases kind

theorem octetForest_inner {profile : Profile} : (trees : List Tree) → (offset depth : Nat) →
    OctetForest profile trees → ∀ e ∈ eventsAll offset (depth + 1) trees, InnerBegin profile e
  | [], _, _, _ => by
    intro e member
    simp [eventsAll] at member
  | t :: rest, offset, depth, shape => by
    intro e member
    simp only [eventsAll, List.mem_append] at member
    obtain here | later := member
    · exact octetTree_inner t offset depth shape.1 e here
    · exact octetForest_inner rest _ depth shape.2 e later

end

theorem octetTree_events {profile : Profile} {tag : UInt8} {t : Tree}
    (shape : OctetTree profile tag t) {later : List Event}
    (events : framing (⟨.begin, 0, 0, some t.header, t.head⟩ :: later) = t.events 0 0) :
    ∀ e ∈ later, InnerBegin profile e := by
  intro e member kind
  have framed : e ∈ framing later := by
    rw [framing, List.mem_filter]
    exact ⟨member, by simp [kind]⟩
  have first : framing (⟨.begin, 0, 0, some t.header, t.head⟩ :: later) =
      ⟨.begin, 0, 0, some t.header, t.head⟩ :: framing later := by
    simp [framing]
  rw [first] at events
  cases t with
  | primitive h head value =>
    have tail := (List.cons.inj events).2
    rw [tail, List.mem_singleton] at framed
    rw [framed] at kind
    cases kind
  | constructed h head children =>
    have tail := (List.cons.inj events).2
    rw [tail, List.mem_append, List.mem_singleton] at framed
    obtain inner | last := framed
    · exact octetForest_inner children _ 0 shape.2 e inner kind
    · rw [last] at kind
      cases kind

variable {tree : Workspace} {profile : Profile} {rootTag : UInt8}
variable {consume : Bytes → Metered Result D Unit}

theorem values_cons (e : Event) (rest : List Event) :
    values (e :: rest) = if e.kind = .value then e.bytes :: values rest else values rest := by
  by_cases value : e.kind = .value
  · simp [values, value]
  · simp [values, value]

theorem visit_failed {visit : Visit} (failed : visit.result ≠ .ok) (s : Budgeted D)
    (events : List Event) :
    events.foldl (octetsVisit profile rootTag consume) (visit, s) = (visit, s) := by
  induction events with
  | nil => rfl
  | cons e rest ih =>
    rw [List.foldl_cons]
    simp only [octetsVisit, if_pos failed]
    exact ih

def OctetBegin (profile : Profile) (rootTag : UInt8) (e : Event) : Prop := e.kind = .begin →
    e.header.elim false (octetHeader profile (if e.depth ≠ 0 then 4 else rootTag)) = true

def rootBegins (events : List Event) : Nat := events.countP fun e => e.kind = .begin && e.depth = 0

variable {s s' : Budgeted D} {encoded : Bytes}

theorem visit_ok {events : List Event} {n : Nat}
    (ended : (events.foldl (octetsVisit profile rootTag consume) (⟨n, .ok⟩, s)).1.result = .ok) :
    (∀ e ∈ events, OctetBegin profile rootTag e) ∧
      (events.foldl (octetsVisit profile rootTag consume) (⟨n, .ok⟩, s)).1.roots =
        n + rootBegins events := by
  induction events generalizing n s with
  | nil => exact ⟨by simp, by simp [rootBegins]⟩
  | cons e rest ih =>
    rw [List.foldl_cons] at ended ⊢
    rcases step : octetsVisit profile rootTag consume (⟨n, .ok⟩, s) e with ⟨⟨roots, result⟩, after⟩
    rw [step] at ended
    have fine : result = .ok := by
      by_contra failed
      rw [visit_failed failed] at ended
      exact failed ended
    subst fine
    obtain ⟨all, count⟩ := ih ended
    have here : OctetBegin profile rootTag e ∧
        roots = n + if e.kind = .begin && e.depth = 0 then 1 else 0 := by
      cases kind : e.kind with
      | begin =>
        simp only [octetsVisit, kind, ne_eq, not_true_eq_false, if_false, Prod.mk.injEq,
          Visit.mk.injEq] at step
        obtain ⟨⟨counted, valid⟩, -⟩ := step
        refine ⟨?_, ?_⟩
        · intro _
          by_contra wrong
          rw [if_neg wrong] at valid
          cases valid
        · rw [← counted]
          by_cases root : e.depth = 0
          · simp [root]
          · simp [root]
      | value =>
        refine ⟨fun begins => absurd (kind.symm.trans begins) (by decide), ?_⟩
        simp only [octetsVisit, kind, ne_eq, not_true_eq_false, if_false] at step
        split at step
        · simp only [Prod.mk.injEq, Visit.mk.injEq] at step
          simp [step.1.1]
        · simp only [Prod.mk.injEq, Visit.mk.injEq] at step
          simp [step.1.1]
      | close =>
        refine ⟨fun begins => absurd (kind.symm.trans begins) (by decide), ?_⟩
        simp only [octetsVisit, kind, ne_eq, not_true_eq_false, if_false, Prod.mk.injEq,
          Visit.mk.injEq] at step
        simp [step.1.1]
    refine ⟨?_, ?_⟩
    · intro e' member
      obtain rfl | later := List.mem_cons.mp member
      · exact here.1
      · exact all e' later
    · rw [count, here.2, rootBegins, rootBegins, List.countP_cons]
      omega

theorem visit_inner (failures : ∀ bytes, Throws (· ≠ .ok) (consume bytes)) {events : List Event}
    (inner : ∀ e ∈ events, InnerBegin profile e) (s : Budgeted D) :
    events.foldl (octetsVisit profile rootTag consume) (⟨1, .ok⟩, s) =
      match (consumeAll consume (values events)).exec s with
      | (.ok _, after) => (⟨1, .ok⟩, after)
      | (.error e, after) => (⟨1, e⟩, after) := by
  induction events generalizing s with
  | nil => rfl
  | cons e rest ih =>
    have later := ih fun e' member => inner e' (by simp [member])
    rw [List.foldl_cons, values_cons]
    cases kind : e.kind with
    | begin =>
      obtain ⟨deep, valid⟩ := inner e (by simp) kind
      have step : octetsVisit profile rootTag consume (⟨1, .ok⟩, s) e = (⟨1, .ok⟩, s) := by
        simp [octetsVisit, kind, deep, valid]
      rw [step, if_neg (by simp)]
      exact later s
    | close =>
      have step : octetsVisit profile rootTag consume (⟨1, .ok⟩, s) e = (⟨1, .ok⟩, s) := by
        simp [octetsVisit, kind]
      rw [step, if_neg (by simp)]
      exact later s
    | value =>
      rw [if_pos rfl, consumeAll, exec_bind]
      rcases outcome : (consume e.bytes).exec s with ⟨failure | done, after⟩
      · have step : octetsVisit profile rootTag consume (⟨1, .ok⟩, s) e =
            (⟨1, failure⟩, after) := by
          simp [octetsVisit, kind, outcome]
        rw [step, visit_failed (failures e.bytes s failure after outcome)]
      · have step : octetsVisit profile rootTag consume (⟨1, .ok⟩, s) e = (⟨1, .ok⟩, after) := by
          simp [octetsVisit, kind, outcome]
        rw [step]
        exact later after

theorem throws_consumeAll {P : Result → Prop} (failures : ∀ bytes, Throws P (consume bytes))
    (chunks : List Bytes) : Throws P (consumeAll consume chunks) := by
  induction chunks with
  | nil => exact .pure ()
  | cons chunk rest ih => exact .bind (failures chunk) fun _ _ _ _ => ih

theorem octetsImplicit_values {t : Tree} (configured : config tree.ber profile = .ok)
    (valid : OctetTree profile rootTag t)
    (parses : Parses tree.sizeT profile tree.limits tree.capacity encoded [.object t])
    (failures : ∀ bytes, Throws (· ≠ .ok) (consume bytes)) :
    octetsImplicit tree profile rootTag consume encoded = (do
        charge .limit encoded.length
        consumeAll consume (values
          (walk tree.ber tree.sizeT profile tree.limits tree.capacity encoded).2)) := by
  have accepted := (walk_ok_iff tree.ber tree.sizeT profile tree.limits tree.capacity
    encoded).mpr ⟨configured, _, parses⟩
  have framed := walk_framing accepted parses
  obtain ⟨-, -, later, begins⟩ := walk_object accepted parses
  have events : eventsItems 0 [.object t] = t.events 0 0 := by
    simp [eventsItems]
  rw [begins, events] at framed
  have inner := octetTree_events valid framed
  have first : ∀ s : Budgeted D, octetsVisit profile rootTag consume (⟨0, .ok⟩, s)
      ⟨.begin, 0, 0, some t.header, t.head⟩ = (⟨1, .ok⟩, s) := by
    intro s
    simp [octetsVisit, valid.header]
  rw [octetsImplicit]
  congr 1
  funext _
  refine funext fun s => ?_
  have visited := @visit_inner D profile rootTag consume failures later inner s
  change (let (result, events) := walk tree.ber tree.sizeT profile tree.limits tree.capacity encoded
    let (visit, s) := events.foldl (octetsVisit profile rootTag consume) (⟨0, .ok⟩, s)
    (visitResult result visit, s)) = (consumeAll consume (values
      (walk tree.ber tree.sizeT profile tree.limits tree.capacity encoded).2)).exec s
  rw [show walk tree.ber tree.sizeT profile tree.limits tree.capacity encoded = (.ok, _) from
    Prod.ext accepted begins, values_cons, if_neg (by simp)]
  simp only [List.foldl_cons, first, visited]
  rcases outcome : (consumeAll consume (values later)).exec s with ⟨failure | done, after⟩
  · have bad := throws_consumeAll failures (values later) s failure after outcome
    simp [visitResult, bad]
  · simp [visitResult]

theorem octetsImplicit_chunks {octets : Bytes}
    (shape : OctetString tree profile rootTag encoded octets) :
    ∃ chunks : List Bytes, chunks.flatten = octets ∧ (∀ chunk ∈ chunks, chunk ≠ []) ∧
      ∀ {D : Type} (consume : Bytes → Metered Result D Unit),
        (∀ bytes, Throws (· ≠ .ok) (consume bytes)) →
        octetsImplicit tree profile rootTag consume encoded = (do
            charge .limit encoded.length
            consumeAll consume chunks) := by
  obtain ⟨configured, t, valid, joined, parses⟩ := shape
  have accepted := (walk_ok_iff tree.ber tree.sizeT profile tree.limits tree.capacity
    encoded).mpr ⟨configured, _, parses⟩
  obtain ⟨payload, filled, -⟩ := walk_object accepted parses
  refine ⟨_, payload.trans joined, ?_, fun consume failures =>
    octetsImplicit_values configured valid parses failures⟩
  intro chunk member
  obtain ⟨e, found, rfl⟩ := List.mem_map.mp member
  have kind := List.mem_filter.mp found
  exact filled e kind.1 (by simpa using kind.2)

mutual

theorem octetTree_of_begins {profile : Profile} (rootTag : UInt8) :
    (t : Tree) → (offset depth : Nat) →
    (∀ e ∈ t.events offset depth, OctetBegin profile rootTag e) →
    OctetTree profile (if depth ≠ 0 then 4 else rootTag) t
  | .primitive h head value, offset, depth, begins => by
    have root := begins ⟨.begin, offset, depth, some h, head⟩ (by simp [Tree.events]) rfl
    exact root
  | .constructed h head children, offset, depth, begins => by
    have root := begins ⟨.begin, offset, depth, some h, head⟩ (by simp [Tree.events]) rfl
    refine ⟨root, octetForest_of_begins rootTag children (offset + head.length) depth ?_⟩
    intro e member
    exact begins e (by simp [Tree.events, member])

theorem octetForest_of_begins {profile : Profile} (rootTag : UInt8) :
    (trees : List Tree) → (offset depth : Nat) →
    (∀ e ∈ eventsAll offset (depth + 1) trees, OctetBegin profile rootTag e) →
    OctetForest profile trees
  | [], _, _, _ => trivial
  | t :: rest, offset, depth, begins => by
    refine ⟨octetTree_of_begins rootTag t offset (depth + 1) ?_,
      octetForest_of_begins rootTag rest (offset + t.encode.length) depth ?_⟩
    · intro e member
      exact begins e (by simp [eventsAll, member])
    · intro e member
      exact begins e (by simp [eventsAll, member])

end

theorem rootBegins_framing (events : List Event) : rootBegins (framing events) = rootBegins events := by
  rw [rootBegins, rootBegins, framing, List.countP_filter]
  refine List.countP_congr ?_
  intro e _
  cases kind : e.kind with
  | begin => simp
  | value => simp
  | close => simp

theorem rootBegins_tree (t : Tree) (offset : Nat) (rest : List Event) :
    1 + rootBegins rest ≤ rootBegins (t.events offset 0 ++ rest) := by
  rw [rootBegins, rootBegins, List.countP_append]
  have one : 1 ≤ (t.events offset 0).countP fun e => e.kind = .begin && e.depth = 0 := by
    rw [Nat.succ_le_iff, List.countP_pos_iff]
    cases t with
    | primitive h head value =>
      exact ⟨⟨.begin, offset, 0, some h, head⟩, by simp [Tree.events], by simp⟩
    | constructed h head children =>
      exact ⟨⟨.begin, offset, 0, some h, head⟩, by simp [Tree.events], by simp⟩
  omega

theorem items_object {sizeT maxValue : Nat} {items : List Item} (plain : profile.iso = false)
    (wellFormed : ∀ item ∈ items, item.WellFormed sizeT profile maxValue)
    (one : rootBegins (eventsItems 0 items) = 1) : ∃ t, items = [.object t] := by
  have unpadded : ∀ b, Item.pad b ∉ items := by
    intro b member
    have padded : padding profile b = true := wellFormed _ member
    cases profile <;> simp [padding, Profile.iso] at padded plain
  cases items with
  | nil => simp [eventsItems, rootBegins] at one
  | cons first rest =>
    cases first with
    | pad b => exact absurd (by simp) (unpadded b)
    | object t =>
      cases rest with
      | nil => exact ⟨t, rfl⟩
      | cons second rest =>
        cases second with
        | pad b => exact absurd (by simp) (unpadded b)
        | object t' =>
          simp only [eventsItems] at one
          have first := rootBegins_tree t 0 (t'.events (0 + t.encode.length) 0 ++
            eventsItems (0 + t.encode.length + t'.encode.length) rest)
          have second := rootBegins_tree t' (0 + t.encode.length)
            (eventsItems (0 + t.encode.length + t'.encode.length) rest)
          omega

theorem octetsImplicit_items (plain : profile.iso = false)
    (given : Gives (octetsImplicit tree profile rootTag consume encoded) s () s') :
    (walk tree.ber tree.sizeT profile tree.limits tree.capacity encoded).1 = .ok ∧
      ∀ items, Parses tree.sizeT profile tree.limits tree.capacity encoded items →
        ∃ t, items = [.object t] ∧ OctetTree profile rootTag t := by
  simp only [octetsImplicit, gives_bind, gives_charge] at given
  obtain ⟨_, _, ⟨_, rfl⟩, given⟩ := given
  generalize (⟨s.work - encoded.length, s.data⟩ : Budgeted D) = start at given
  change (let (result, events) := walk tree.ber tree.sizeT profile tree.limits tree.capacity encoded
    let (visit, s) := events.foldl (octetsVisit profile rootTag consume) (⟨0, .ok⟩, start)
    (visitResult result visit, s)) = (Except.ok (), s') at given
  have traversal := fun accepted items => @walk_framing tree.ber tree.sizeT profile tree.limits
    tree.capacity encoded items accepted
  generalize walk tree.ber tree.sizeT profile tree.limits tree.capacity encoded = walked at *
  obtain ⟨result, events⟩ := walked
  simp only at given traversal
  have finished := congrArg Prod.fst given
  simp only [visitResult] at finished
  split at finished
  · cases finished
  rename_i accepted
  split at finished
  · cases finished
  rename_i rooted
  split at finished
  · cases finished
  rename_i ended
  simp only [ne_eq, not_not] at accepted rooted ended
  obtain ⟨begins, count⟩ := visit_ok ended
  refine ⟨accepted, fun items parses => ?_⟩
  have framed := traversal accepted items parses
  have one : rootBegins (eventsItems 0 items) = 1 := by
    rw [← framed, rootBegins_framing]
    omega
  obtain ⟨t, rfl⟩ := items_object plain parses.wellFormed one
  refine ⟨t, rfl, octetTree_of_begins rootTag t 0 0 ?_⟩
  intro e member
  have found : e ∈ framing events := by
    rw [framed]
    simpa [eventsItems] using member
  exact begins e (List.mem_filter.mp found).1

theorem octetsImplicit_gives (plain : profile.iso = false)
    (given : Gives (octetsImplicit tree profile rootTag consume encoded) s () s') :
    ∃ octets, OctetString tree profile rootTag encoded octets := by
  obtain ⟨accepted, single⟩ := octetsImplicit_items plain given
  obtain ⟨configured, items, parses⟩ := (walk_ok_iff tree.ber tree.sizeT profile
    tree.limits tree.capacity encoded).mp accepted
  obtain ⟨t, rfl, valid⟩ := single items parses
  exact ⟨t.octets, configured, t, valid, rfl, parses⟩

/-- What `storeChunk` does to its state. -/
def Storage.store (buffer : Option Nat) (state : Storage) (bytes : Bytes) : Storage where
  first := if state.chunks = 0 then bytes else state.first
  chunks := if bytes.length ≠ 0 && state.chunks < 2 then state.chunks + 1 else state.chunks
  length := state.length + bytes.length
  joined := if buffer.isSome then state.joined ++ bytes else state.joined

theorem storeChunk_ends (sizeMax : Nat) (buffer : Option Nat) (bytes : Bytes) (state : Storage) :
    Ends .limit (storeChunk sizeMax buffer bytes) state (.ok ((), state.store buffer bytes)) := by
  refine ends_bind ends_data ?_
  dsimp only
  split
  · exact ends_limit
  cases buffer with
  | none => exact ends_bind ends_pure (ends_update _)
  | some size =>
    rw [storeBuffer]
    dsimp only
    split
    · exact ends_limit
    · exact ends_bind (ends_bind (ends_charge _) (ends_update _)) (ends_update _)

theorem storeChunk_throws (sizeMax : Nat) (buffer : Option Nat) (bytes : Bytes) :
    Throws (· ≠ .ok) (storeChunk sizeMax buffer bytes) := by
  refine .bind throws_data fun _ state _ _ => ?_
  dsimp only
  split
  · exact .bind (.throw (by decide)) fun _ _ _ given => absurd given gives_throw
  refine .bind ?_ fun _ _ _ _ => throws_update
  cases buffer with
  | none => exact .pure ()
  | some size =>
    rw [storeBuffer]
    dsimp only
    split
    · exact .bind (.throw (by decide)) fun _ _ _ given => absurd given gives_throw
    · exact .bind (throws_charge (by decide)) fun _ _ _ _ => throws_update

theorem consumeAll_ends {consume : Bytes → Metered Result D Unit} {step : D → Bytes → D}
    (each : ∀ bytes d, Ends .limit (consume bytes) d (.ok ((), step d bytes))) (chunks : List Bytes)
    (d : D) : Ends .limit (consumeAll consume chunks) d (.ok ((), chunks.foldl step d)) := by
  induction chunks generalizing d with
  | nil => exact ends_pure
  | cons chunk rest ih => exact ends_bind (each chunk d) (ih (step d chunk))

theorem storeAll_later {buffer : Option Nat} {state : Storage} (two : state.chunks = 2)
    (chunks : List Bytes) : chunks.foldl (Storage.store buffer) state =
      { state with
        length := state.length + chunks.flatten.length,
        joined := if buffer.isSome then state.joined ++ chunks.flatten else state.joined } := by
  induction chunks generalizing state with
  | nil =>
    cases state
    simp
  | cons chunk rest ih =>
    have next : state.store buffer chunk =
        { state with
          length := state.length + chunk.length,
          joined := if buffer.isSome then state.joined ++ chunk else state.joined } := by
      simp [Storage.store, two]
    rw [List.foldl_cons, ih (by rw [next]; exact two), next]
    cases buffer with
    | none => simp [Nat.add_assoc]
    | some size => simp [Nat.add_assoc]

theorem storeAll_fresh {chunks : List Bytes} (filled : ∀ chunk ∈ chunks, chunk ≠ []) :
    let state := chunks.foldl (Storage.store none) ⟨[], 0, 0, []⟩
    (state.chunks < 2 ↔ chunks.length < 2) ∧ (chunks.length < 2 → state.first = chunks.flatten) ∧
      (¬chunks.length < 2 →
        state.chunks = 2 ∧ state.length = chunks.flatten.length ∧ state.joined = []) := by
  match chunks, filled with
  | [], _ => simp
  | [chunk], filled =>
    have some : chunk ≠ [] := filled chunk (by simp)
    simp [Storage.store, some]
  | first :: second :: rest, filled =>
    have one : first ≠ [] := filled first (by simp)
    have two : second ≠ [] := filled second (by simp)
    have started : (Storage.store none (Storage.store none ⟨[], 0, 0, []⟩ first) second).chunks = 2 := by
      simp [Storage.store, one, two]
    rw [List.foldl_cons, List.foldl_cons, storeAll_later started]
    simp [Storage.store, one, two, Nat.add_assoc]

/-- Where chunks that have bytes lie. -/
def spanOf (chunks : List Bytes) : Span :=
  if chunks.length < 2 then .borrowed chunks.flatten else .joined chunks.flatten

@[simp] theorem spanOf_bytes (chunks : List Bytes) : (spanOf chunks).bytes = chunks.flatten := by
  rw [spanOf]
  split <;> rfl

theorem octetsSpan_chunks {scratch : Nat} {chunks : List Bytes} (allowed : rootAllowed rootTag = true)
    (filled : ∀ chunk ∈ chunks, chunk ≠ [])
    (visits : ∀ consume : Bytes → Metered Result Storage Unit,
      (∀ bytes, Throws (· ≠ .ok) (consume bytes)) →
        octetsImplicit tree profile rootTag consume encoded = (do
            charge .limit encoded.length
            consumeAll consume chunks)) (d : D) :
    Ends .limit (octetsSpan tree profile rootTag scratch encoded) d (.ok (spanOf chunks, d)) := by
  have pass : ∀ (buffer : Option Nat) (state : Storage),
      Ends .limit (octetsImplicit tree profile rootTag (storeChunk tree.sizeMax buffer) encoded) state
        (.ok ((), chunks.foldl (Storage.store buffer) state)) := by
    intro buffer state
    rw [visits _ (storeChunk_throws tree.sizeMax buffer)]
    exact ends_bind (ends_charge _) (consumeAll_ends (storeChunk_ends tree.sizeMax buffer) chunks state)
  obtain ⟨counts, borrows, joins⟩ := storeAll_fresh filled
  rw [octetsSpan, if_neg (by simp [allowed])]
  refine ends_bind (ends_locally (pass none ⟨[], 0, 0, []⟩)) ?_
  dsimp only
  by_cases few : chunks.length < 2
  · rw [if_pos (counts.mpr few), borrows few, spanOf, if_pos few]
    exact ends_pure
  · obtain ⟨several, length, empty⟩ := joins few
    rw [if_neg (few ∘ counts.mp), spanOf, if_neg few]
    split
    · exact ends_limit
    refine ends_bind (ends_locally (pass (some _) _)) ?_
    rw [storeAll_later (by exact several)]
    simp only [Option.isSome_some, if_true, empty, List.nil_append]
    exact ends_pure

section

variable (unmetered : ∀ bytes, Unmetered (consume bytes))

include unmetered

theorem visit_unmetered (events : List Event) (visit : Visit) (d : D) :
    ∃ ended d', ∀ work, events.foldl (octetsVisit profile rootTag consume) (visit, ⟨work, d⟩) =
      (ended, ⟨work, d'⟩) := by
  induction events generalizing visit d with
  | nil => exact ⟨visit, d, fun _ => rfl⟩
  | cons e rest ih =>
    have step : ∃ next middle, ∀ work,
        octetsVisit profile rootTag consume (visit, ⟨work, d⟩) e = (next, ⟨work, middle⟩) := by
      by_cases failed : visit.result ≠ .ok
      · exact ⟨visit, d, fun _ => by simp [octetsVisit, failed]⟩
      · simp only [octetsVisit, if_neg failed]
        cases e.kind with
        | begin => exact ⟨_, _, fun _ => rfl⟩
        | close => exact ⟨_, _, fun _ => rfl⟩
        | value =>
          obtain ⟨r, d', run⟩ := unmetered e.bytes d
          cases r with
          | ok done => exact ⟨visit, d', fun work => by simp [run]⟩
          | error failure => exact ⟨{ visit with result := failure }, d', fun work => by simp [run]⟩
    obtain ⟨next, middle, here⟩ := step
    obtain ⟨ended, d', later⟩ := ih next middle
    exact ⟨ended, d', fun work => by rw [List.foldl_cons, here, later]⟩

theorem octetsWalk_unmetered (encoded : Bytes) : Unmetered (ExceptT.mk fun s =>
      let (result, events) := walk tree.ber tree.sizeT profile tree.limits tree.capacity encoded
      let (visit, s) := events.foldl (octetsVisit profile rootTag consume) (⟨0, .ok⟩, s)
      (visitResult result visit, s) : Metered Result D Unit) := by
  intro d
  obtain ⟨result, events⟩ := walk tree.ber tree.sizeT profile tree.limits tree.capacity encoded
  obtain ⟨visit, d', run⟩ := @visit_unmetered D profile rootTag consume unmetered events ⟨0, .ok⟩ d
  refine ⟨visitResult result visit, d', fun work => ?_⟩
  change (let (visit, s) := events.foldl (octetsVisit profile rootTag consume) (⟨0, .ok⟩, ⟨work, d⟩)
    (visitResult result visit, s)) = _
  rw [run work]

theorem octetsImplicit_steady (encoded : Bytes) :
    Agree .limit (octetsImplicit tree profile rootTag consume encoded)
      (octetsImplicit tree profile rootTag consume encoded) :=
  agree_bind (agree_charge _ _) fun _ => Unmetered.steady (octetsWalk_unmetered unmetered encoded)

end

theorem storeChunk_unmetered (sizeMax : Nat) (bytes : Bytes) :
    Unmetered (storeChunk sizeMax none bytes) := by
  intro state
  by_cases long : bytes.length > sizeMax - state.length
  · exact ⟨.error .limit, state, fun work => by simp [storeChunk, long, exec_bind]⟩
  · exact ⟨.ok (), state.store none bytes,
      fun work => by simp [storeChunk, storeBuffer, Storage.store, long, exec_bind]⟩

theorem octetsContiguous_ends {scratch : Nat} {octets : Bytes} (d : D)
    (allowed : rootAllowed rootTag = true)
    (shape : OctetString tree profile rootTag encoded octets) :
    Ends .limit (octetsContiguous tree profile rootTag scratch encoded) d (.ok (octets, d)) := by
  obtain ⟨chunks, rfl, filled, visits⟩ := octetsImplicit_chunks shape
  rw [← spanOf_bytes]
  exact ends_bind (octetsSpan_chunks allowed filled (fun _ => visits _) d) ends_pure

end TinyCrypto.Pki
