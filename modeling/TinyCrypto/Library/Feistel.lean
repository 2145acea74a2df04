import Mathlib.Data.List.Forall2

/-! # Feistel networks

A round mixes a function of one half into the other and exchanges them. The same rounds in
the opposite order undo a network, whatever the function is.
-/

namespace Library.Feistel

variable {W V K J : Type}

def step (mix : W → W → W) (f : K → W → W) (halves : W × W) (k : K) : W × W :=
  (halves.2, mix halves.1 (f k halves.2))

def run (mix : W → W → W) (f : K → W → W) (keys : List K) (halves : W × W) : W × W :=
  keys.foldl (step mix f) halves

variable {mix : W → W → W} {f : K → W → W}

theorem run_append (first second : List K) (halves : W × W) :
    run mix f (first ++ second) halves = run mix f second (run mix f first halves) :=
  List.foldl_append

theorem step_swap_step (cancels : ∀ a b, mix (mix a b) b = a) (halves : W × W) (k : K) :
    step mix f (step mix f halves k).swap k = halves.swap := by
  obtain ⟨left, right⟩ := halves
  simp [step, cancels]

theorem run_reverse (cancels : ∀ a b, mix (mix a b) b = a) (keys : List K) (halves : W × W) :
    run mix f keys.reverse (run mix f keys halves).swap = halves.swap := by
  induction keys generalizing halves with
  | nil => rfl
  | cons k rest ih =>
    have later := ih (step mix f halves k)
    rw [List.reverse_cons, run_append]
    change step mix f (run mix f rest.reverse (run mix f rest (step mix f halves k)).swap) k = _
    rw [later]
    exact step_swap_step cancels halves k

theorem run_map {mix' : V → V → V} {f' : J → V → V} (word : W → V)
    (mixed : ∀ a b, word (mix a b) = mix' (word a) (word b)) {keys : List K} {keys' : List J}
    (rounds : List.Forall₂ (fun k k' => ∀ half, word (f k half) = f' k' (word half)) keys keys')
    (halves : W × W) :
    (run mix f keys halves).map word word = run mix' f' keys' (halves.map word word) := by
  induction rounds generalizing halves with
  | nil => rfl
  | @cons k k' rest rest' round _ ih =>
    have here : (step mix f halves k).map word word = step mix' f' (halves.map word word) k' := by
      simp [step, mixed, round]
    have later := ih (step mix f halves k)
    rw [here] at later
    exact later

end Library.Feistel
