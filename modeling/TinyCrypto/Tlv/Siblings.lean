import Mathlib.Data.List.Perm.Basic
import TinyCrypto.Tlv.Elements
import TinyCrypto.Tlv.WalkValues

/-! # Siblings and their order

Valid elements are read back one after the other, whatever follows, so the bytes of siblings
determine them. An object whose children are permuted is walked like the object itself.
-/

namespace TinyCrypto.Tlv

open Library Library.Program Library.Metered

section

variable {r : Reading} {limits : Limits} {e : ProfileElement} {rest : Bytes} {profile : Profile}
  {sizeT maxValue : Nat}

theorem encodings_cons (e : ProfileElement) (elements : List ProfileElement) :
    encodings (e :: elements) = e.encoded ++ encodings elements := rfl

theorem encodings_append (first second : List ProfileElement) :
    encodings (first ++ second) = encodings first ++ encodings second := List.flatMap_append

theorem encodings_perm {first second : List ProfileElement} (perm : first.Perm second) :
    (encodings first).length = (encodings second).length := (perm.flatMap_right _).length_eq

theorem readProfile_valid (configured : config r.ber r.profile = .ok) (valid : e.Valid r limits)
    (size : (e.encoded ++ rest).length ≤ limits.maxInput) :
    readProfile r limits (e.encoded ++ rest) = .ok e := by
  obtain ⟨head, same, length, definite, header⟩ := valid
  have headed := header.headerLength
  rw [readProfile, if_neg (not_not.mpr configured), if_neg (Nat.not_lt.mpr size), same,
    List.append_assoc, headerParse_valid header]
  dsimp only
  rw [definite, if_neg Bool.false_ne_true, headed, ← length, if_neg (by
    rw [List.length_append, List.length_append]
    omega)]
  obtain ⟨h, encoded, value⟩ := e
  dsimp only at same ⊢
  rw [← List.append_assoc, ← List.length_append, List.take_left, same, List.append_assoc,
    List.drop_left, List.take_left]

theorem nextProfile_valid {count : Nat} (configured : config r.ber r.profile = .ok)
    (valid : e.Valid r limits) (size : (e.encoded ++ rest).length ≤ limits.maxInput)
    (room : count < limits.maxElements) :
    nextProfile r limits ⟨e.encoded ++ rest, count⟩ = .ok (e, ⟨rest, count + 1⟩) := by
  have nonempty : e.encoded ++ rest ≠ [] := by
    rw [← List.length_pos_iff, List.length_append]
    have := valid.encoded_pos
    omega
  rw [nextProfile, if_neg nonempty, if_neg (Nat.not_le.mpr room), readProfile_valid configured valid size]
  dsimp only
  rw [List.drop_left]

theorem siblings_unique (configured : config r.ber r.profile = .ok) {first second : List ProfileElement}
    (valid : ∀ e ∈ first, e.Valid r limits) (valid' : ∀ e ∈ second, e.Valid r limits)
    (size : (encodings first).length ≤ limits.maxInput) (same : encodings first = encodings second) :
    first = second := by
  induction first generalizing second with
  | nil =>
    cases second with
    | nil => rfl
    | cons e rest =>
      have pos := (valid' e (List.mem_cons_self ..)).encoded_pos
      have empty := congrArg List.length same
      rw [encodings_cons, List.length_append] at empty
      change 0 = _ at empty
      omega
  | cons e rest ih =>
    cases second with
    | nil =>
      have pos := (valid e (List.mem_cons_self ..)).encoded_pos
      have empty := congrArg List.length same
      rw [encodings_cons, List.length_append] at empty
      change _ = 0 at empty
      omega
    | cons e' rest' =>
      have here : readProfile r limits (e.encoded ++ encodings rest) = .ok e :=
        readProfile_valid configured (valid e (List.mem_cons_self ..)) size
      have size' := size
      rw [same] at size'
      have there : readProfile r limits (e'.encoded ++ encodings rest') = .ok e' :=
        readProfile_valid configured (valid' e' (List.mem_cons_self ..)) size'
      rw [encodings_cons, encodings_cons] at same
      rw [same, there, Except.ok.injEq] at here
      subst here
      have shorter : (encodings rest).length ≤ limits.maxInput := by
        rw [encodings_cons, List.length_append] at size
        omega
      rw [ih (fun e within => valid e (List.mem_cons_of_mem _ within))
        (fun e within => valid' e (List.mem_cons_of_mem _ within)) shorter
        (List.append_cancel_left same)]

section

variable {D A : Type} {body : Bytes → ProfileElement → A → Metered Result D A} {a : A}

theorem elementsLoop_pays (I : List ProfileElement → A → Prop)
    (configured : config r.ber r.profile = .ok) {passes count : Nat} {done left : List ProfileElement}
    (valid : ∀ e ∈ left, e.Valid r limits) (size : (encodings left).length ≤ limits.maxInput)
    (room : count + left.length ≤ limits.maxElements) (enough : (encodings left).length ≤ passes)
    (start : I done a)
    (step : ∀ before e after a, done ++ left = before ++ e :: after → I before a →
      ∃ a', Pays (body (encodings before) e a) a' ∧ I (before ++ [e]) a') :
    ∃ a', Pays (elementsLoop r limits body passes (encodings done) ⟨encodings left, count⟩ a) a' ∧
      I (done ++ left) a' := by
  induction left generalizing passes count done a with
  | nil =>
    refine ⟨a, ?_, by rwa [List.append_nil]⟩
    cases passes with
    | zero => exact pays_pure
    | succ passes => exact pays_pure
  | cons e rest ih =>
    have here := valid e (List.mem_cons_self ..)
    have pos := here.encoded_pos
    rw [encodings_cons] at size enough ⊢
    rw [List.length_cons] at room
    cases passes with
    | zero =>
      rw [List.length_append] at enough
      omega
    | succ passes =>
      obtain ⟨middle, paid, kept⟩ := step done e rest a rfl start
      have sizes := @List.length_append _ e.encoded (encodings rest)
      obtain ⟨a', later, ends⟩ := @ih middle passes (count + 1) (done ++ [e])
        (fun e within => valid e (List.mem_cons_of_mem _ within)) (by omega) (by omega)
        (by omega) kept (fun before e' after a split => step before e' after a
          (by rw [← split, List.append_assoc]; rfl))
      refine ⟨a', ?_, ?_⟩
      · rw [elementsLoop, nextProfile_valid configured here size (by omega)]
        dsimp only
        have joined : encodings done ++ e.encoded = encodings (done ++ [e]) := by
          rw [encodings_append]
          exact congrArg _ (List.append_nil _).symm
        rw [joined]
        exact pays_bind paid later
      · rw [List.append_assoc] at ends
        exact ends

theorem forElements_pays (I : List ProfileElement → A → Prop) (configured : config r.ber r.profile = .ok)
    {elements : List ProfileElement} (valid : ∀ e ∈ elements, e.Valid r limits)
    (size : (encodings elements).length ≤ limits.maxInput) (room : elements.length ≤ limits.maxElements)
    (start : I [] a) (step : ∀ before e after a, elements = before ++ e :: after → I before a →
      ∃ a', Pays (body (encodings before) e a) a' ∧ I (before ++ [e]) a') :
    ∃ a', Pays (forElements r limits body (encodings elements) a) a' ∧ I elements a' := by
  have opened : profileInit r limits (encodings elements) = .ok ⟨encodings elements, 0⟩ := by
    rw [profileInit, if_neg (not_not.mpr configured), if_neg (Nat.not_lt.mpr size)]
  have total : 0 + elements.length ≤ limits.maxElements := by omega
  obtain ⟨a', paid, ends⟩ := elementsLoop_pays I configured valid size total le_rfl start step
  exact ⟨a', pays_bind (pays_lift opened) paid, ends⟩

theorem forElements_reliable (reliable : ∀ before e a, Reliable (body before e a)) (input : Bytes) :
    Reliable (forElements r limits body input a) := by
  have loop (passes : Nat) (before : Bytes) (reader : Reader) (a : A) :
      Reliable (elementsLoop r limits body passes before reader a) := by
    induction passes generalizing before reader a with
    | zero => exact reliable_pure
    | succ passes ih =>
      rw [elementsLoop]
      split
      · exact reliable_pure
      · exact reliable_throw
      · exact (reliable _ _ _).bind fun a => ih _ _ a
  exact .bind reliable_lift fun reader => loop _ _ _ _

end

end

variable {r : Reading} {limits : Limits} {capacity sizeT maxValue : Nat} {profile : Profile}

def Tree.body : Tree → Bytes
  | .primitive _ _ value => value
  | .constructed _ _ children => encodeAll children

def Tree.element (t : Tree) : ProfileElement := ⟨t.header, t.encode, t.body⟩

mutual

def Tree.definite : Tree → Bool
  | .primitive h _ _ => !h.indefinite
  | .constructed h _ children => !h.indefinite && allDefinite children

def allDefinite : List Tree → Bool
  | [] => true
  | t :: rest => t.definite && allDefinite rest

end

theorem Tree.element_valid {t : Tree} (wellFormed : t.WellFormed r.sizeT r.profile limits.maxValue)
    (definite : t.definite = true) : t.element.Valid r limits := by
  cases t with
  | primitive h head value =>
    rw [Tree.WellFormed] at wellFormed
    rw [Tree.definite, Bool.not_eq_true'] at definite
    exact ⟨head, by simp only [Tree.element, Tree.encode, Tree.body], wellFormed.2.2, definite, wellFormed.1⟩
  | constructed h head children =>
    rw [Tree.WellFormed] at wellFormed
    rw [Tree.definite, Bool.and_eq_true, Bool.not_eq_true'] at definite
    refine ⟨head, ?_, wellFormed.2.2.1 definite.1, definite.1, wellFormed.1⟩
    simp only [Tree.element, Tree.encode, Tree.body, endOctets, definite.1]
    exact List.append_nil _

theorem encodings_element (trees : List Tree) : encodings (trees.map Tree.element) = encodeAll trees := by
  induction trees with
  | nil => rw [encodeAll]; rfl
  | cons t rest ih =>
    rw [List.map_cons, encodings_cons, ih, encodeAll]
    rfl

theorem allWellFormed_iff {trees : List Tree} :
    AllWellFormed sizeT profile maxValue trees ↔ ∀ t ∈ trees, t.WellFormed sizeT profile maxValue := by
  induction trees with
  | nil => simp [AllWellFormed]
  | cons t rest ih => simp [AllWellFormed, ih]

theorem allDefinite_iff {trees : List Tree} : allDefinite trees = true ↔ ∀ t ∈ trees, t.definite = true := by
  induction trees with
  | nil => simp [allDefinite]
  | cons t rest ih => simp [allDefinite, ih]

theorem countAll_perm {first second : List Tree} (perm : first.Perm second) :
    countAll first = countAll second := by
  induction perm with
  | nil => rfl
  | cons t _ ih => simp only [countAll, ih]
  | swap t t' rest => simp only [countAll, Nat.add_left_comm]
  | trans _ _ ih ih' => exact ih.trans ih'

theorem heightAll_perm {first second : List Tree} (perm : first.Perm second) :
    heightAll first = heightAll second := by
  induction perm with
  | nil => rfl
  | cons t _ ih => simp only [heightAll, ih]
  | swap t t' rest => simp only [heightAll, Nat.max_left_comm]
  | trans _ _ ih ih' => exact ih.trans ih'

theorem length_le_countAll (trees : List Tree) : trees.length ≤ countAll trees := by
  induction trees with
  | nil => rw [countAll]; exact Nat.zero_le _
  | cons t rest ih =>
    have one : 1 ≤ t.count := by
      cases t with
      | primitive h head value => rw [Tree.count]
      | constructed h head children =>
        rw [Tree.count]
        omega
    rw [countAll, List.length_cons]
    omega

def Event.indefiniteBegin (e : Event) : Bool := e.kind = .begin && e.header.elim false (·.indefinite)

mutual

theorem events_definite : (t : Tree) → (offset depth : Nat) →
    (t.events offset depth).any Event.indefiniteBegin = !t.definite
  | .primitive h head value, offset, depth => by
    simp [Tree.events, Tree.definite, Event.indefiniteBegin]
  | .constructed h head children, offset, depth => by
    have inner := eventsAll_definite children (offset + head.length) (depth + 1)
    simp only [Tree.events, Tree.definite, List.any_cons, List.any_append, inner, List.any_nil]
    simp [Event.indefiniteBegin]

theorem eventsAll_definite : (trees : List Tree) → (offset depth : Nat) →
    (eventsAll offset depth trees).any Event.indefiniteBegin = !allDefinite trees
  | [], offset, depth => by simp [eventsAll, allDefinite]
  | t :: rest, offset, depth => by
    have here := events_definite t offset depth
    have later := eventsAll_definite rest (offset + t.encode.length) depth
    simp only [eventsAll, allDefinite, List.any_append, here, later, Bool.not_and]

end

theorem framing_indefinite (events : List Event) :
    (framing events).any Event.indefiniteBegin = events.any Event.indefiniteBegin := by
  induction events with
  | nil => rfl
  | cons e rest ih =>
    rw [framing] at ih ⊢
    by_cases value : e.kind = .value
    · rw [List.filter_cons_of_neg (by simp [value]), ih, List.any_cons]
      simp [Event.indefiniteBegin, value]
    · rw [List.filter_cons_of_pos (by simp [value]), List.any_cons, List.any_cons, ih]

theorem encodeItems_objects (trees : List Tree) :
    encodeItems (trees.map .object) = encodeAll trees := by
  induction trees with
  | nil => rw [encodeAll]; rfl
  | cons t rest ih =>
    rw [encodeAll, ← ih]
    rfl

theorem eventsItems_definite (trees : List Tree) (offset : Nat) :
    (eventsItems offset (trees.map .object)).any Event.indefiniteBegin = !allDefinite trees := by
  induction trees generalizing offset with
  | nil => simp [eventsItems, allDefinite]
  | cons t rest ih =>
    simp only [List.map_cons, eventsItems, allDefinite, List.any_append, events_definite, ih, Bool.not_and]

theorem items_objects {items : List Item} (plain : profile.iso = false)
    (wellFormed : ∀ item ∈ items, item.WellFormed sizeT profile maxValue) :
    ∃ trees : List Tree, items = trees.map .object := by
  induction items with
  | nil => exact ⟨[], rfl⟩
  | cons item rest ih =>
    obtain ⟨trees, rfl⟩ := ih fun item within => wellFormed item (List.mem_cons_of_mem _ within)
    cases item with
    | object t => exact ⟨t :: trees, rfl⟩
    | pad b =>
      have padded : padding profile b = true := wellFormed _ (List.mem_cons_self ..)
      cases profile <;> simp [padding, Profile.iso] at padded plain

def WalksDefinite (r : Reading) (limits : Limits) (capacity : Nat) (bytes : Bytes) : Prop :=
  (walk r.ber r.sizeT r.profile limits capacity bytes).1 = .ok ∧
    (walk r.ber r.sizeT r.profile limits capacity bytes).2.any Event.indefiniteBegin = false

theorem walksDefinite_iff (plain : r.profile.iso = false) {bytes : Bytes} :
    WalksDefinite r limits capacity bytes ↔ config r.ber r.profile = .ok ∧ ∃ trees : List Tree,
      Parses r.sizeT r.profile limits capacity bytes (trees.map .object) ∧ allDefinite trees = true := by
  have accepts := walk_ok_iff r.ber r.sizeT r.profile limits capacity bytes
  constructor
  · rintro ⟨accepted, definite⟩
    obtain ⟨configured, items, parses⟩ := accepts.mp accepted
    obtain ⟨trees, rfl⟩ := items_objects plain parses.wellFormed
    refine ⟨configured, trees, parses, ?_⟩
    rw [← framing_indefinite, walk_framing accepted parses, eventsItems_definite] at definite
    exact (Bool.not_eq_false' ..).mp definite
  · rintro ⟨configured, trees, parses, definite⟩
    have accepted := accepts.mpr ⟨configured, _, parses⟩
    refine ⟨accepted, ?_⟩
    rw [← framing_indefinite, walk_framing accepted parses, eventsItems_definite, definite]
    rfl

theorem WalksDefinite.size {bytes : Bytes} (plain : r.profile.iso = false)
    (walks : WalksDefinite r limits capacity bytes) :
    config r.ber r.profile = .ok ∧ bytes.length ≤ limits.maxInput := by
  obtain ⟨configured, trees, parses, -⟩ := (walksDefinite_iff plain).mp walks
  exact ⟨configured, parses.size⟩

theorem walked_object {outer : ProfileElement} (plain : r.profile.iso = false)
    (valid : outer.Valid r limits) (walked : WalksDefinite r limits capacity outer.encoded) :
    ∃ t : Tree, t.element = outer ∧ t.definite = true ∧
      Parses r.sizeT r.profile limits capacity outer.encoded [.object t] := by
  obtain ⟨configured, trees, parses, definite⟩ := (walksDefinite_iff plain).mp walked
  have each : ∀ e ∈ trees.map Tree.element, e.Valid r limits := by
    intro e within
    obtain ⟨t, member, rfl⟩ := List.mem_map.mp within
    exact Tree.element_valid (parses.wellFormed _ (List.mem_map_of_mem member))
      (allDefinite_iff.mp definite t member)
  have joined : encodings (trees.map Tree.element) = outer.encoded := by
    rw [encodings_element, ← encodeItems_objects]
    exact parses.encoded
  have one : trees.map Tree.element = [outer] := by
    refine siblings_unique configured each (fun e within => ?_) (joined ▸ parses.size)
      (joined.trans (List.append_nil _).symm)
    rw [List.mem_singleton.mp within]
    exact valid
  match trees, one with
  | [t], one =>
    refine ⟨t, List.singleton_inj.mp one, ?_, parses⟩
    exact allDefinite_iff.mp definite t (List.mem_singleton_self t)

def reordered (outer : ProfileElement) (members : List ProfileElement) : ProfileElement :=
  ⟨outer.header, outer.encoded.take outer.header.headerLength ++ encodings members, encodings members⟩

theorem perm_of_map {A B : Type} {f : A → B} {whole : List A} {image : List B}
    (perm : (whole.map f).Perm image) : ∃ moved : List A, moved.map f = image ∧ whole.Perm moved := by
  have paired : List.Forall₂ (fun b a => b = f a) (whole.map f) whole := by
    rw [List.forall₂_map_left_iff, List.forall₂_same]
    exact fun _ _ => rfl
  obtain ⟨moved, related, rest⟩ := List.perm_comp_forall₂ perm.symm paired
  refine ⟨moved, ?_, rest.symm⟩
  clear rest paired perm
  induction related with
  | nil => rfl
  | cons same _ ih => rw [List.map_cons, ← same, ih]

theorem reordered_walks {outer : ProfileElement} {members members' : List ProfileElement}
    (plain : r.profile.iso = false) (valid : outer.Valid r limits)
    (walked : WalksDefinite r limits capacity outer.encoded) (constructed : outer.header.constructed = true)
    (each : ∀ e ∈ members, e.Valid r limits) (joined : encodings members = outer.value)
    (perm : members.Perm members') : (reordered outer members').Valid r limits ∧
      WalksDefinite r limits capacity (reordered outer members').encoded ∧
      members.length ≤ limits.maxElements := by
  obtain ⟨configured, -⟩ := (walksDefinite_iff plain).mp walked
  obtain ⟨t, rfl, definite, parses⟩ := walked_object plain valid walked
  have wellFormed : t.WellFormed r.sizeT r.profile limits.maxValue :=
    parses.wellFormed _ (List.mem_singleton_self _)
  cases t with
  | primitive h head value =>
    rw [Tree.WellFormed] at wellFormed
    change h.constructed = true at constructed
    rw [wellFormed.2.1] at constructed
    cases constructed
  | constructed h head children =>
    rw [Tree.WellFormed] at wellFormed
    rw [Tree.definite, Bool.and_eq_true, Bool.not_eq_true'] at definite
    obtain ⟨header, flag, sized, -, children_ok⟩ := wellFormed
    have same : members = children.map Tree.element := by
      have size : (encodings members).length ≤ limits.maxInput := by
        have whole := parses.size
        rw [joined]
        change (head ++ encodeAll children ++ endOctets h).length ≤ _ at whole
        rw [List.length_append, List.length_append] at whole
        change (encodeAll children).length ≤ _
        omega
      refine siblings_unique configured each ?_ size (joined.trans (encodings_element children).symm)
      intro e within
      obtain ⟨t, member, rfl⟩ := List.mem_map.mp within
      exact Tree.element_valid (allWellFormed_iff.mp children_ok t member)
        (allDefinite_iff.mp definite.2 t member)
    subst same
    obtain ⟨children', rfl, moved⟩ := perm_of_map perm
    have length : (encodeAll children').length = (encodeAll children).length := by
      rw [← encodings_element, ← encodings_element]
      exact (encodings_perm perm).symm
    have rebuilt : reordered (Tree.constructed h head children).element (children'.map Tree.element) =
        (Tree.constructed h head children').element := by
      have front : (Tree.constructed h head children).encode.take h.headerLength = head := by
        rw [header.headerLength, Tree.encode, List.append_assoc, List.take_left]
      have last : endOctets h = [] := by
        rw [endOctets, definite.1, if_neg Bool.false_ne_true]
      rw [reordered, encodings_element]
      change (⟨h, (Tree.constructed h head children).encode.take h.headerLength ++ encodeAll children',
        encodeAll children'⟩ : ProfileElement) = ⟨h, head ++ encodeAll children' ++ endOctets h, encodeAll children'⟩
      rw [front, last, List.append_nil]
    have wellFormed' : (Tree.constructed h head children').WellFormed r.sizeT r.profile limits.maxValue := by
      rw [Tree.WellFormed]
      refine ⟨header, flag, fun fixed => length.trans (sized fixed), fun open_ => ?_, ?_⟩
      · rw [definite.1] at open_
        cases open_
      · exact allWellFormed_iff.mpr fun t member =>
          allWellFormed_iff.mp children_ok t (moved.mem_iff.mpr member)
    have definite' : (Tree.constructed h head children').definite = true := by
      rw [Tree.definite, definite.1, Bool.not_false, Bool.true_and]
      exact allDefinite_iff.mpr fun t member => allDefinite_iff.mp definite.2 t (moved.mem_iff.mpr member)
    rw [rebuilt]
    have counted : (Tree.constructed h head children').count = (Tree.constructed h head children).count := by
      rw [Tree.count, Tree.count, countAll_perm moved]
    have height : (Tree.constructed h head children').height = (Tree.constructed h head children).height := by
      rw [Tree.height, Tree.height, heightAll_perm moved]
    have sizes : (Tree.constructed h head children').encode.length =
        (Tree.constructed h head children).encode.length := by
      simp only [Tree.encode, List.length_append, length]
    refine ⟨Tree.element_valid wellFormed' definite', ?_, ?_⟩
    · refine (walksDefinite_iff plain).mpr ⟨configured, [Tree.constructed h head children'], ?_, ?_⟩
      · refine ⟨List.append_nil _, ?_, ?_, ?_, ?_⟩
        · intro item within
          rw [List.mem_singleton.mp within]
          exact wellFormed'
        · have elements := parses.elements
          change _ + 0 ≤ _ at elements ⊢
          change (Tree.constructed h head children').count + 0 ≤ _
          rw [counted]
          exact elements
        · intro item within
          rw [List.mem_singleton.mp within]
          change (Tree.constructed h head children').height ≤ _ ∧
            (Tree.constructed h head children').height ≤ _
          rw [height]
          exact parses.depth _ (List.mem_singleton_self _)
        · exact Nat.le_trans (Nat.le_of_eq sizes) parses.size
      · rw [allDefinite, definite']
        rfl
    · have elements := parses.elements
      change (Tree.constructed h head children).count + 0 ≤ _ at elements
      rw [Tree.count] at elements
      rw [List.length_map]
      have few := length_le_countAll children
      omega

end TinyCrypto.Tlv
