import OpenCryptoki.Lib.BlockMap
import Mathlib.Logic.Function.Iterate

/-!
# `OpenCryptoki.Lib.BlockPass`: passes over the blocks of a message in both directions

`mapBlocks` runs a step over the blocks from the first one to the last one. `mapBlocksBack`
runs it from the last one to the first one. It is `mapBlocks` seen in a mirror: all lists are
reversed. So a lemma about one direction gives the lemma about the other one.

A cipher may run over the whole message several times, each time with the state that the time
before has left. If a step `back` undoes a step `step`, and each takes the state back to where
it was, then passes with `back` in the opposite direction undo passes with `step`
(`iterate_passBack_pass`, `iterate_pass_passBack`).

`BlockPerm` is a permutation of the blocks of one size, with its inverse.
-/

set_option autoImplicit false

namespace OpenCryptoki.Lib

open List

variable {α S : Type} {n : Nat}

/-- A permutation of the blocks of `n` elements, and its inverse. -/
structure BlockPerm (α : Type) (n : Nat) where
  enc : List α → List α
  dec : List α → List α
  length_enc : ∀ b, b.length = n → (enc b).length = n
  length_dec : ∀ b, b.length = n → (dec b).length = n
  dec_enc : ∀ b, b.length = n → dec (enc b) = b
  enc_dec : ∀ b, b.length = n → enc (dec b) = b

/-- A step on reversed lists. -/
def mirror (f : S → List α → List α × S) (s : S) (xs : List α) : List α × S :=
  ((f s xs.reverse).1.reverse, (f s xs.reverse).2)

/-- Mirroring twice changes nothing. -/
@[simp] theorem mirror_mirror (f : S → List α → List α × S) : mirror (mirror f) = f := by
  funext s xs
  simp [mirror]

/-- The output for all full blocks of `xs` and the state, when the last block comes first. -/
def mapBlocksBack (n : Nat) (step : S → List α → List α × S) (s : S) (xs : List α) :
    List α × S :=
  mirror (mapBlocks n (mirror step)) s xs

section
variable {step back : S → List α → List α × S} {s : S}

/-- Without data there is nothing to go back over. -/
@[simp] theorem mapBlocksBack_nil (n : Nat) (step : S → List α → List α × S) (s : S) :
    mapBlocksBack n step s [] = ([], s) := by
  simp [mapBlocksBack, mirror]

/-- The last block is processed first. -/
theorem mapBlocksBack_concat (hn : 0 < n) {xs b : List α} (hxs : n ∣ xs.length)
    (hb : b.length = n) :
    mapBlocksBack n step s (xs ++ b) = ((mapBlocksBack n step (step s b).2 xs).1 ++ (step s b).1,
          (mapBlocksBack n step (step s b).2 xs).2) := by
  have hb' : b.reverse.length = n := by rw [length_reverse, hb]
  have hxs' : n ∣ xs.reverse.length := by rwa [length_reverse]
  rw [mapBlocksBack, mirror, reverse_append, mapBlocks_cons hn hb' hxs']
  simp [mapBlocksBack, mirror]

/-- The first block is processed last. -/
theorem mapBlocksBack_cons (hn : 0 < n) {b xs : List α} (hb : b.length = n)
    (hxs : n ∣ xs.length) :
    mapBlocksBack n step s (b ++ xs)
      = ((step (mapBlocksBack n step s xs).2 b).1 ++ (mapBlocksBack n step s xs).1,
          (step (mapBlocksBack n step s xs).2 b).2) := by
  have hb' : b.reverse.length = n := by rw [length_reverse, hb]
  have hxs' : n ∣ xs.reverse.length := by rwa [length_reverse]
  rw [mapBlocksBack, mirror, reverse_append,
    mapBlocks_append hn hxs' ⟨1, by rw [hb', Nat.mul_one]⟩, mapBlocks_block hn hb']
  simp [mapBlocksBack, mirror]

end

/-! ### A step that undoes another one -/

/-- From a state with `I`, `back` undoes `step`: it gives back the block and the state. -/
structure StepUndoes (n : Nat) (I : S → Prop) (back step : S → List α → List α × S) : Prop where
  inv : ∀ s b, I s → b.length = n → I (step s b).2
  length_eq : ∀ s b, I s → b.length = n → (step s b).1.length = n
  back_step : ∀ s b, I s → b.length = n → back (step s b).2 (step s b).1 = (b, s)

section
variable {I : S → Prop} {step back : S → List α → List α × S} {s : S} {xs : List α}

/-- Steps that undo each other do so mirrored. -/
theorem StepUndoes.mirror (h : StepUndoes n I back step) :
    StepUndoes n I (mirror back) (mirror step) where
  inv s b hs hb := h.inv s b.reverse hs (by rw [length_reverse, hb])
  length_eq s b hs hb := by
    rw [Lib.mirror, length_reverse, h.length_eq s _ hs (by rw [length_reverse, hb])]
  back_step s b hs hb := by
    have hback := h.back_step s b.reverse hs (by rw [length_reverse, hb])
    simp only [Lib.mirror, reverse_reverse, hback]

section
variable (h : StepUndoes n I back step) (hn : 0 < n) (hs : I s) (hxs : n ∣ xs.length)
include h hn hs hxs

/-- A pass keeps the invariant and the length. -/
theorem StepUndoes.mapBlocks_keeps :
    I (mapBlocks n step s xs).2 ∧ (mapBlocks n step s xs).1.length = xs.length := by
  induction xs, hxs using blocks_induction generalizing s with
  | nil => simpa using hs
  | block b xs hb hxs ih =>
    obtain ⟨hinv, hlen⟩ := ih (h.inv s b hs hb)
    rw [mapBlocks_cons hn hb hxs]
    refine ⟨hinv, ?_⟩
    rw [length_append, length_append, hlen, h.length_eq s b hs hb, hb]

/-- The pass back undoes the pass: it meets the blocks in the opposite order. -/
theorem StepUndoes.mapBlocksBack_mapBlocks :
    mapBlocksBack n back (mapBlocks n step s xs).2 (mapBlocks n step s xs).1 = (xs, s) := by
  induction xs, hxs using blocks_induction generalizing s with
  | nil => simp
  | block b xs hb hxs ih =>
    have hinv := h.inv s b hs hb
    have hrest : n ∣ (mapBlocks n step (step s b).2 xs).1.length := by
      rwa [(h.mapBlocks_keeps hn hinv hxs).2]
    rw [mapBlocks_cons hn hb hxs, mapBlocksBack_cons hn (h.length_eq s b hs hb) hrest, ih hinv,
      h.back_step s b hs hb]

end

section
variable (h : StepUndoes n I step back) (hn : 0 < n) (hs : I s) (hxs : n ∣ xs.length)
include h hn hs hxs

/-- A pass back keeps the invariant and the length. -/
theorem StepUndoes.mapBlocksBack_keeps :
    I (mapBlocksBack n back s xs).2 ∧ (mapBlocksBack n back s xs).1.length = xs.length := by
  have hkeeps := h.mirror.mapBlocks_keeps hn hs (by rwa [length_reverse] : n ∣ xs.reverse.length)
  simpa only [mapBlocksBack, Lib.mirror, length_reverse] using hkeeps

/-- The pass undoes the pass back. In the mirror this is `mapBlocksBack_mapBlocks`. -/
theorem StepUndoes.mapBlocks_mapBlocksBack :
    mapBlocks n step (mapBlocksBack n back s xs).2 (mapBlocksBack n back s xs).1 = (xs, s) := by
  have hmirror := h.mirror.mapBlocksBack_mapBlocks hn hs
    (by rwa [length_reverse] : n ∣ xs.reverse.length)
  rw [mapBlocksBack, mirror_mirror, Lib.mirror, Prod.mk.injEq, reverse_inj] at hmirror
  exact Prod.ext hmirror.1 hmirror.2

end

end

/-! ### Several passes -/

/-- One pass over the blocks, from the first one to the last one. -/
def pass (n : Nat) (step : S → List α → List α × S) (r : List α × S) : List α × S :=
  mapBlocks n step r.2 r.1

/-- One pass over the blocks, from the last one to the first one. -/
def passBack (n : Nat) (step : S → List α → List α × S) (r : List α × S) : List α × S :=
  mapBlocksBack n step r.2 r.1

section
variable {I : S → Prop} {step back : S → List α → List α × S} {r : List α × S}

/-- Passes keep the invariant and the length. -/
theorem StepUndoes.iterate_pass_keeps (h : StepUndoes n I back step) (hn : 0 < n) (k : Nat)
    (hs : I r.2) (hxs : n ∣ r.1.length) :
    I ((pass n step)^[k] r).2 ∧ ((pass n step)^[k] r).1.length = r.1.length := by
  induction k with
  | zero => exact ⟨hs, rfl⟩
  | succ k ih =>
    obtain ⟨hinv, hlen⟩ := ih
    rw [Function.iterate_succ_apply', ← hlen]
    exact h.mapBlocks_keeps hn hinv (hlen ▸ hxs)

/-- Passes back keep the invariant and the length. -/
theorem StepUndoes.iterate_passBack_keeps (h : StepUndoes n I step back) (hn : 0 < n) (k : Nat)
    (hs : I r.2) (hxs : n ∣ r.1.length) :
    I ((passBack n back)^[k] r).2 ∧ ((passBack n back)^[k] r).1.length = r.1.length := by
  induction k with
  | zero => exact ⟨hs, rfl⟩
  | succ k ih =>
    obtain ⟨hinv, hlen⟩ := ih
    rw [Function.iterate_succ_apply', ← hlen]
    exact h.mapBlocksBack_keeps hn hinv (hlen ▸ hxs)

/-- As many passes back undo the passes. -/
theorem StepUndoes.iterate_passBack_pass (h : StepUndoes n I back step) (hn : 0 < n) (k : Nat)
    (hs : I r.2) (hxs : n ∣ r.1.length) :
    (passBack n back)^[k] ((pass n step)^[k] r) = r := by
  induction k with
  | zero => rfl
  | succ k ih =>
    obtain ⟨hinv, hlen⟩ := h.iterate_pass_keeps hn k hs hxs
    -- The last pass is the first one that is undone.
    rw [Function.iterate_succ_apply, Function.iterate_succ_apply' (pass n step), passBack, pass,
      h.mapBlocksBack_mapBlocks hn hinv (hlen ▸ hxs)]
    exact ih

/-- Passes undo as many passes back. -/
theorem StepUndoes.iterate_pass_passBack (h : StepUndoes n I step back) (hn : 0 < n) (k : Nat)
    (hs : I r.2) (hxs : n ∣ r.1.length) :
    (pass n step)^[k] ((passBack n back)^[k] r) = r := by
  induction k with
  | zero => rfl
  | succ k ih =>
    obtain ⟨hinv, hlen⟩ := h.iterate_passBack_keeps hn k hs hxs
    rw [Function.iterate_succ_apply, Function.iterate_succ_apply' (passBack n back), pass, passBack,
      h.mapBlocks_mapBlocksBack hn hinv (hlen ▸ hxs)]
    exact ih

end

end OpenCryptoki.Lib
