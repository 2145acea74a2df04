import Mathlib.Data.List.Basic
import Mathlib.Logic.Function.Basic

/-! # Bucket chains

A table of positions keeps one chain for each bucket: a head for the bucket and a link for each
position. Positions are pushed at the head in ascending order, so every chain descends.
-/

namespace Library

inductive Chain (next : Nat → Option Nat) : Option Nat → List Nat → Prop
  | nil : Chain next none []
  | cons {i : Nat} {rest : List Nat} : Chain next (next i) rest → Chain next (some i) (i :: rest)

section

variable {next next' : Nat → Option Nat} {cursor : Option Nat} {positions : List Nat}

theorem Chain.frame (chain : Chain next cursor positions)
    (same : ∀ i ∈ positions, next' i = next i) : Chain next' cursor positions := by
  induction chain with
  | nil => exact .nil
  | @cons i rest _ ih =>
    refine .cons ?_
    rw [same i List.mem_cons_self]
    exact ih fun j member => same j (List.mem_cons_of_mem i member)

end

structure Buckets (head next : Nat → Option Nat) (bucket : Nat → Nat) (members : Nat → Prop) :
    Prop where
  chain : ∀ b, ∃ positions, Chain next (head b) positions ∧ positions.Pairwise (· > ·) ∧
    ∀ i, i ∈ positions ↔ members i ∧ bucket i = b

section

variable {head next head' next' : Nat → Option Nat} {bucket bucket' : Nat → Nat}
  {members members' : Nat → Prop}

theorem Buckets.empty (none : ∀ b, head b = none) (nothing : ∀ i, ¬members i) :
    Buckets head next bucket members where
  chain b := by
    refine ⟨[], ?_, .nil, fun i => ⟨fun member => (nomatch member), fun held => absurd held.1 (nothing i)⟩⟩
    rw [none]
    exact .nil

theorem Buckets.frame (buckets : Buckets head next bucket members)
    (heads : ∀ b, head' b = head b) (links : ∀ i, members i → next' i = next i)
    (same : ∀ i, members' i ↔ members i) (keys : ∀ i, members i → bucket' i = bucket i) :
    Buckets head' next' bucket' members' where
  chain b := by
    obtain ⟨positions, chain, descends, within⟩ := buckets.chain b
    refine ⟨positions, ?_, descends, fun i => ?_⟩
    · rw [heads]
      exact chain.frame fun i member => links i ((within i).mp member).1
    · rw [within, same]
      exact and_congr_right fun known => by rw [keys i known]

theorem Buckets.push (buckets : Buckets head next bucket members) {i : Nat}
    (beyond : ∀ j, members j → j < i) (pushed : head' (bucket i) = some i)
    (heads : ∀ b, b ≠ bucket i → head' b = head b) (link : next' i = head (bucket i))
    (links : ∀ j, members j → next' j = next j) (added : ∀ j, members' j ↔ members j ∨ j = i) :
    Buckets head' next' bucket members' where
  chain b := by
    obtain ⟨positions, chain, descends, within⟩ := buckets.chain b
    have framed : Chain next' (head b) positions :=
      chain.frame fun j member => links j ((within j).mp member).1
    by_cases here : b = bucket i
    · subst here
      refine ⟨i :: positions, ?_, ?_, fun j => ?_⟩
      · rw [pushed]
        refine .cons ?_
        rwa [link]
      · exact .cons (fun j member => beyond j ((within j).mp member).1) descends
      · rw [List.mem_cons, within, added]
        constructor
        · rintro (rfl | held)
          · exact ⟨.inr rfl, rfl⟩
          · exact ⟨.inl held.1, held.2⟩
        · rintro ⟨known | same, key⟩
          · exact .inr ⟨known, key⟩
          · exact .inl same
    · refine ⟨positions, ?_, descends, fun j => ?_⟩
      · rwa [heads b here]
      · rw [within, added]
        constructor
        · exact fun held => ⟨.inl held.1, held.2⟩
        · rintro ⟨known | rfl, key⟩
          · exact ⟨known, key⟩
          · exact absurd key.symm here

end

end Library

namespace Library

variable {K V : Type} (same : K → K → Prop) (removes : V → Prop)

def Finds (list : List (K × V)) (key : K) : Option V → Prop
  | none => ∀ p ∈ list, ¬same p.1 key
  | some v => (∃ p ∈ list, same p.1 key) ∧ ∀ p ∈ list, same p.1 key → p.2 = v

open Classical in
noncomputable def overlaid (base changes : List (K × V)) : List (K × V) :=
  (base.filter fun b => ∀ d ∈ changes, ¬same b.1 d.1) ++ changes.filter fun d => ¬removes d.2

open Classical in
noncomputable def overlay : Option V → Option V → Option V
  | before, none => before
  | _, some v => if removes v then none else some v

variable {same removes} {base changes list : List (K × V)} {key : K} {before after : Option V}

theorem mem_overlaid {p : K × V} : p ∈ overlaid same removes base changes ↔
    (p ∈ base ∧ ∀ d ∈ changes, ¬same p.1 d.1) ∨ (p ∈ changes ∧ ¬removes p.2) := by
  simp [overlaid]

theorem Finds.overlaid (symm : ∀ {k k'}, same k k' → same k' k)
    (trans : ∀ {k k' k''}, same k k' → same k' k'' → same k k'')
    (base_ : Finds same base key before) (changes_ : Finds same changes key after) :
    Finds same (overlaid same removes base changes) key (overlay removes before after) := by
  cases after with
  | none =>
    have kept {p : K × V} : p ∈ Library.overlaid same removes base changes ∧ same p.1 key ↔
        p ∈ base ∧ same p.1 key := by
      rw [mem_overlaid]
      constructor
      · rintro ⟨⟨within, -⟩ | ⟨within, -⟩, here⟩
        · exact ⟨within, here⟩
        · exact absurd here (changes_ p within)
      · rintro ⟨within, here⟩
        exact ⟨.inl ⟨within, fun d change other => changes_ d change (trans (symm other) here)⟩, here⟩
    cases before with
    | none => exact fun p within here => base_ p (kept.mp ⟨within, here⟩).1 here
    | some v =>
      obtain ⟨⟨p, within, here⟩, value⟩ := base_
      exact ⟨⟨p, (kept.mpr ⟨within, here⟩).1, here⟩,
        fun q within here => value q (kept.mp ⟨within, here⟩).1 here⟩
  | some v =>
    obtain ⟨⟨d, change, there⟩, value⟩ := changes_
    have replaced {p : K × V} : p ∈ Library.overlaid same removes base changes ∧ same p.1 key ↔
        p ∈ changes ∧ same p.1 key ∧ ¬removes v := by
      rw [mem_overlaid]
      constructor
      · rintro ⟨⟨-, apart⟩ | ⟨within, stays⟩, here⟩
        · exact absurd (trans here (symm there)) (apart d change)
        · exact ⟨within, here, value p within here ▸ stays⟩
      · rintro ⟨within, here, stays⟩
        exact ⟨.inr ⟨within, by rwa [value p within here]⟩, here⟩
    by_cases removed : removes v
    · rw [overlay, if_pos removed]
      exact fun p within here => (replaced.mp ⟨within, here⟩).2.2 removed
    · rw [overlay, if_neg removed]
      exact ⟨⟨d, (replaced.mpr ⟨change, there, removed⟩).1, there⟩,
        fun p within here => value p (replaced.mp ⟨within, here⟩).1 here⟩

end Library
