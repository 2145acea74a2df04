import Mathlib.Data.List.Basic

/-! # Incremental decoding

A decoder takes one item from the front of its input, or asks for more of it. What it has
found does not change when input is added, so a run may stop and go on later.
-/

namespace Library.Incremental

inductive Next (β α E : Type) where
  | more
  | failed (error : E)
  | item (found : α) (rest : List β)

structure Decoder (β α E : Type) where
  next : List β → Next β α E
  shorter : ∀ {input : List β} {found : α} {rest : List β},
    next input = .item found rest → rest.length < input.length
  failed_append : ∀ {input : List β} {error : E} (later : List β),
    next input = .failed error → next (input ++ later) = .failed error
  item_append : ∀ {input : List β} {found : α} {rest : List β} (later : List β),
    next input = .item found rest → next (input ++ later) = .item found (rest ++ later)

namespace Decoder

variable {β α E C : Type} (d : Decoder β α E) (give : C → α → Option E × C)

/-- The items of an input are given away until one is refused, and what is left is returned. -/
def run (input : List β) (context : C) : Except E (List β) × C := match found : d.next input with
  | .more => (.ok input, context)
  | .failed error => (.error error, context)
  | .item item rest =>
    have _shorter := d.shorter found
    match give context item with
    | (none, context) => run rest context
    | (some error, context) => (.error error, context)
termination_by input.length

def runPieces : List β → List (List β) → C → Except E (List β) × C
  | pending, [], context => (.ok pending, context)
  | pending, piece :: pieces, context =>
    match d.run give (pending ++ piece) context with
    | (.ok left, context) => runPieces left pieces context
    | failed => failed

variable {d give}

theorem run_more {input : List β} {context : C} (more : d.next input = .more) :
    d.run give input context = (.ok input, context) := by
  rw [run]
  split <;> simp_all

theorem run_failed {input : List β} {context : C} {error : E} (failed : d.next input = .failed error) :
    d.run give input context = (.error error, context) := by
  rw [run]
  split <;> simp_all

theorem run_item {input rest : List β} {context : C} {item : α} (found : d.next input = .item item rest) :
    d.run give input context = match give context item with
      | (none, context) => d.run give rest context
      | (some error, context) => (.error error, context) := by
  rw [run]
  split <;> simp_all

theorem run_left {input left : List β} {context after : C}
    (given : d.run give input context = (.ok left, after)) : d.next left = .more := by
  induction size : input.length using Nat.strongRecOn generalizing input context with
  | ind size ih =>
    cases found : d.next input with
    | more =>
      rw [run_more found] at given
      cases given
      exact found
    | failed error =>
      rw [run_failed found] at given
      cases given
    | item item rest =>
      rw [run_item found] at given
      split at given
      · exact ih rest.length (by rw [← size]; exact d.shorter found) given rfl
      · cases given

theorem run_error {P : E → Prop} (decoder : ∀ input error, d.next input = .failed error → P error)
    (function : ∀ context item error after, give context item = (some error, after) → P error)
    {input : List β} {context after : C} {error : E}
    (given : d.run give input context = (.error error, after)) : P error := by
  induction size : input.length using Nat.strongRecOn generalizing input context with
  | ind size ih =>
    cases found : d.next input with
    | more =>
      rw [run_more found] at given
      cases given
    | failed error' =>
      rw [run_failed found] at given
      cases given
      exact decoder input error found
    | item item rest =>
      rw [run_item found] at given
      split at given
      · exact ih rest.length (by rw [← size]; exact d.shorter found) given rfl
      · rename_i refused
        cases given
        exact function _ _ _ _ refused

theorem run_append (input later : List β) (context : C) : d.run give (input ++ later) context =
      match d.run give input context with
      | (.ok left, context) => d.run give (left ++ later) context
      | failed => failed := by
  induction size : input.length using Nat.strongRecOn generalizing input context with
  | ind size ih =>
    cases found : d.next input with
    | more => rw [run_more found]
    | failed error => rw [run_failed found, run_failed (d.failed_append later found)]
    | item item rest =>
      rw [run_item found, run_item (d.item_append later found)]
      split
      · exact ih rest.length (by rw [← size]; exact d.shorter found) rest _ rfl
      · rfl

theorem runPieces_eq {pending : List β} (waiting : d.next pending = .more) (pieces : List (List β))
    (context : C) :
    d.runPieces give pending pieces context = d.run give (pending ++ pieces.flatten) context := by
  induction pieces generalizing pending context with
  | nil => rw [runPieces, List.flatten_nil, List.append_nil, run_more waiting]
  | cons piece pieces ih =>
    rw [runPieces, List.flatten_cons, ← List.append_assoc, run_append (pending ++ piece)]
    cases first : d.run give (pending ++ piece) context with
    | mk outcome after =>
      cases outcome with
      | error e => rfl
      | ok left => exact ih (run_left first) after

end Decoder

end Library.Incremental
