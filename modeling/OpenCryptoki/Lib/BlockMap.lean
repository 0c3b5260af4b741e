import OpenCryptoki.Lib.BlockFold

/-!
# `OpenCryptoki.Lib.BlockMap`: modes of operation that turn blocks into blocks

`mapBlocks n step s xs` runs a step over the blocks of `n` elements of `xs`. The step turns a
block into output and moves a state on. Blocks in front of a list are processed first
(`mapBlocks_append`), so the output does not depend on how a message is cut at block
boundaries. A step that undoes another one block by block undoes it for all blocks
(`mapBlocks_inverse`).

`BlockCipher` is a step of a special kind: a cipher on blocks that is tweaked by the state,
where the state advances by itself. `encSteal` and `decSteal` extend such a cipher to
messages whose last block is not full, by ciphertext stealing. The two directions use the
last two states in opposite order. `decSteal_encSteal` says that one undoes the other.
-/

set_option autoImplicit false

namespace OpenCryptoki.Lib

open List

variable {α S : Type} {n : Nat}

variable {xs : List α}

/-- One block more is still whole blocks. -/
theorem dvd_length_block_append {b : List α} (hb : b.length = n) (hxs : n ∣ xs.length) :
    n ∣ (b ++ xs).length := by
  rw [length_append, hb]
  exact Nat.dvd_add (Nat.dvd_refl n) hxs

/-- Induction over the blocks of a list. -/
@[elab_as_elim]
theorem blocks_induction {motive : (xs : List α) → n ∣ xs.length → Prop}
    (nil : motive [] (Nat.dvd_zero n))
    (block : ∀ (b xs : List α) (hb : b.length = n) (hxs : n ∣ xs.length), motive xs hxs →
      motive (b ++ xs) (dvd_length_block_append hb hxs))
    (xs : List α) (hxs : n ∣ xs.length) : motive xs hxs := by
  obtain ⟨k, hk⟩ := id hxs
  induction k generalizing xs with
  | zero =>
    rw [mul_zero, length_eq_zero_iff] at hk
    subst hk
    exact nil
  | succ k ih =>
    have hle : n ≤ xs.length := by
      rw [hk, Nat.mul_succ]
      exact le_add_self
    have hrest : (xs.drop n).length = n * k := by
      rw [length_drop, hk, Nat.mul_succ, Nat.add_sub_cancel]
    have hcons := block _ _ (length_take_of_le hle) ⟨k, hrest⟩ (ih _ ⟨k, hrest⟩ hrest)
    simpa only [take_append_drop] using hcons

/-! ### A map over blocks with a state -/

/-- The output so far and the state, after one more block. -/
def mapStep (step : S → List α → List α × S) (acc : List α × S) (b : List α) : List α × S :=
  (acc.1 ++ (step acc.2 b).1, (step acc.2 b).2)

/-- The output for all full blocks of `xs`, and the state after them. -/
def mapBlocks (n : Nat) (step : S → List α → List α × S) (s : S) (xs : List α) : List α × S :=
  foldBlocks n (mapStep step) ([], s) xs

section
variable {step : S → List α → List α × S} {s : S}

/-- Without data there is nothing to map. -/
@[simp] theorem mapBlocks_nil (n : Nat) (step : S → List α → List α × S) (s : S) :
    mapBlocks n step s [] = ([], s) :=
  foldBlocks_nil _ _

/-- A single block is one step. -/
theorem mapBlocks_block (hn : 0 < n) {b : List α} (hb : b.length = n) :
    mapBlocks n step s b = step s b := by
  rw [mapBlocks, foldBlocks_block hn hb]
  rfl

variable {xs : List α}

/-- Output that is there already stays in front. -/
private theorem foldBlocks_mapStep (hn : 0 < n) (out : List α) (hxs : n ∣ xs.length) :
    foldBlocks n (mapStep step) (out, s) xs
      = (out ++ (mapBlocks n step s xs).1, (mapBlocks n step s xs).2) := by
  induction xs, hxs using blocks_induction generalizing out s with
  | nil => simp
  | block b xs hb hxs ih =>
    have hdvd : n ∣ b.length := ⟨1, by rw [hb, mul_one]⟩
    rw [mapBlocks, foldBlocks_append hn hdvd, foldBlocks_append hn hdvd,
      foldBlocks_block hn hb, foldBlocks_block hn hb, mapStep, mapStep, ih, ih]
    simp

/-- Blocks in front of a list are processed first. -/
theorem mapBlocks_append (hn : 0 < n) {ys : List α} (hxs : n ∣ xs.length) (hys : n ∣ ys.length) :
    mapBlocks n step s (xs ++ ys)
      = ((mapBlocks n step s xs).1 ++ (mapBlocks n step (mapBlocks n step s xs).2 ys).1,
          (mapBlocks n step (mapBlocks n step s xs).2 ys).2) := by
  rw [mapBlocks, foldBlocks_append hn hxs]
  exact foldBlocks_mapStep hn _ hys

/-- The first block is mapped, and its state goes on to the others. -/
theorem mapBlocks_cons (hn : 0 < n) {b : List α} (hb : b.length = n) (hxs : n ∣ xs.length) :
    mapBlocks n step s (b ++ xs) = ((step s b).1 ++ (mapBlocks n step (step s b).2 xs).1,
          (mapBlocks n step (step s b).2 xs).2) := by
  rw [mapBlocks_append hn ⟨1, by rw [hb, mul_one]⟩ hxs, mapBlocks_block hn hb]

/-- A step that keeps the length of a block keeps the length of a list. -/
theorem length_mapBlocks (hn : 0 < n) (hstep : ∀ s b, b.length = n → (step s b).1.length = n)
    (hxs : n ∣ xs.length) : (mapBlocks n step s xs).1.length = xs.length := by
  induction xs, hxs using blocks_induction generalizing s with
  | nil => simp
  | block b xs hb hxs ih =>
    rw [mapBlocks_cons hn hb hxs, length_append, length_append, ih, hstep s b hb, hb]

/-- What undoes each step undoes them all, and goes through the same states. -/
theorem mapBlocks_inverse (hn : 0 < n) {back : S → List α → List α × S}
    (hlen : ∀ s b, b.length = n → (step s b).1.length = n)
    (hback : ∀ s b, b.length = n → back s (step s b).1 = (b, (step s b).2)) (hxs : n ∣ xs.length) :
    mapBlocks n back s (mapBlocks n step s xs).1 = (xs, (mapBlocks n step s xs).2) := by
  induction xs, hxs using blocks_induction generalizing s with
  | nil => simp
  | block b xs hb hxs ih =>
    have hrest : n ∣ (mapBlocks n step (step s b).2 xs).1.length := by
      rwa [length_mapBlocks hn hlen hxs]
    rw [mapBlocks_cons hn hb hxs, mapBlocks_cons hn (hlen s b hb) hrest, hback s b hb]
    show (b ++ (mapBlocks n back (step s b).2 _).1, _) = _
    rw [ih]

end

/-! ### Ciphers on blocks -/

/-- A cipher on blocks of `n` elements that is tweaked by a state, and how the state moves
on from block to block. -/
structure BlockCipher (α S : Type) (n : Nat) where
  crypt : S → List α → List α
  next : S → S
  length_crypt : ∀ s b, b.length = n → (crypt s b).length = n

namespace BlockCipher

/-- The cipher on all full blocks of a list. -/
def run (c : BlockCipher α S n) (s : S) (xs : List α) : List α × S :=
  mapBlocks n (fun s b => (c.crypt s b, c.next s)) s xs

/-- `d` undoes `c`. -/
structure Undoes (d c : BlockCipher α S n) : Prop where
  next_eq : d.next = c.next
  crypt_crypt : ∀ s b, b.length = n → d.crypt s (c.crypt s b) = b

section
variable (c : BlockCipher α S n)

/-- A cipher on no data. -/
@[simp] theorem run_nil (s : S) : c.run s [] = ([], s) := mapBlocks_nil _ _ _

/-- A cipher on one block. -/
theorem run_block (hn : 0 < n) (s : S) {b : List α} (hb : b.length = n) :
    c.run s b = (c.crypt s b, c.next s) :=
  mapBlocks_block hn hb

/-- The state after the first part starts the second part. -/
theorem run_append (hn : 0 < n) (s : S) {xs ys : List α} (hxs : n ∣ xs.length)
    (hys : n ∣ ys.length) :
    c.run s (xs ++ ys) = ((c.run s xs).1 ++ (c.run (c.run s xs).2 ys).1,
      (c.run (c.run s xs).2 ys).2) :=
  mapBlocks_append hn hxs hys

/-- A cipher keeps the length of whole blocks. -/
theorem length_run (hn : 0 < n) (s : S) {xs : List α} (hxs : n ∣ xs.length) :
    (c.run s xs).1.length = xs.length :=
  length_mapBlocks hn (fun s b hb => c.length_crypt s b hb) hxs

end

/-- Decryption of whole blocks undoes their encryption, from the same state. -/
theorem Undoes.run_run {c d : BlockCipher α S n} (h : d.Undoes c) (hn : 0 < n) (s : S)
    {xs : List α} (hxs : n ∣ xs.length) : d.run s (c.run s xs).1 = (xs, (c.run s xs).2) := by
  refine mapBlocks_inverse hn (fun s b hb => c.length_crypt s b hb) ?_ hxs
  intro s b hb
  simp only [h.crypt_crypt s b hb, h.next_eq]

/-! ### Ciphertext stealing -/

/-- The last full block and the elements after it. The block is done with the state `first`.
The end of the result fills up the elements after the block, which are then done with the
state `second`. The start of the result is the end of the message. Without elements after it,
the block is done with the state `s`. -/
def stealTail (c : BlockCipher α S n) (first second s : S) (last ys : List α) : List α :=
  if ys = [] then c.crypt s last
  else
    c.crypt second (ys ++ (c.crypt first last).drop ys.length)
      ++ (c.crypt first last).take ys.length

/-- The end of a message, encrypted. -/
def encTail (c : BlockCipher α S n) (s : S) : List α → List α → List α :=
  c.stealTail s (c.next s) s

/-- The end of a message, decrypted: its last full block has been encrypted with the later
state. -/
def decTail (c : BlockCipher α S n) (s : S) : List α → List α → List α :=
  c.stealTail (c.next s) s s

end BlockCipher

/-- All full blocks of a list but the last one. -/
def heads (n : Nat) (xs : List α) : List α := xs.take (xs.length - xs.length % n - n)

/-- The last full block of a list. -/
def lastBlock (n : Nat) (xs : List α) : List α :=
  (xs.drop (xs.length - xs.length % n - n)).take n

/-- The three parts of the data for ciphertext stealing. -/
theorem heads_append_lastBlock_append_rest (h : n ≤ xs.length) (hn : 0 < n) :
    heads n xs ++ (lastBlock n xs ++ rest n xs) = xs := by
  have hle : n ≤ xs.length - xs.length % n := by
    have hdiv := Nat.div_add_mod xs.length n
    have hone : 1 ≤ xs.length / n := (Nat.one_le_div_iff hn).mpr h
    have hmul : n * 1 ≤ n * (xs.length / n) := Nat.mul_le_mul_left n hone
    omega
  have hrest : rest n xs = (xs.drop (xs.length - xs.length % n - n)).drop n := by
    rw [drop_drop, Nat.sub_add_cancel hle]
    rfl
  rw [hrest, lastBlock, take_append_drop, heads, take_append_drop]

/-- How a list of at least one block is cut by `heads`, `lastBlock` and `rest`. -/
theorem cut_append {last tail : List α} (hxs : n ∣ xs.length) (hlast : last.length = n)
    (htail : tail.length < n) :
    heads n (xs ++ (last ++ tail)) = xs ∧ lastBlock n (xs ++ (last ++ tail)) = last
      ∧ rest n (xs ++ (last ++ tail)) = tail := by
  obtain ⟨k, hk⟩ := hxs
  have hlen : (xs ++ (last ++ tail)).length = n * (k + 1) + tail.length := by
    simp only [length_append, hlast, hk, Nat.mul_succ, add_assoc]
  have hmod : (xs ++ (last ++ tail)).length % n = tail.length := by
    rw [hlen, Nat.mul_add_mod, Nat.mod_eq_of_lt htail]
  have hcut : (xs ++ (last ++ tail)).length - (xs ++ (last ++ tail)).length % n - n
      = xs.length := by
    rw [hmod, hlen, hk, Nat.mul_succ]
    omega
  refine ⟨?_, ?_, ?_⟩
  · rw [heads, hcut, take_left]
  · rw [lastBlock, hcut, drop_left, ← hlast, take_left]
  · rw [rest, hmod, hlen, Nat.add_sub_cancel, ← append_assoc]
    apply drop_left'
    rw [length_append, hk, hlast, Nat.mul_succ]

/-- The blocks in front of the last one are whole. -/
theorem dvd_length_heads (n : Nat) (xs : List α) : n ∣ (heads n xs).length := by
  rw [heads, length_take, min_eq_left (by omega)]
  exact Nat.dvd_sub (Nat.dvd_sub_mod _) (dvd_refl n)

/-- The last whole block is one block. -/
theorem length_lastBlock (h : n ≤ xs.length) (hn : 0 < n) : (lastBlock n xs).length = n := by
  have hmod := Nat.mod_le xs.length n
  rw [lastBlock, length_take, length_drop]
  omega

namespace BlockCipher

/-- All full blocks but the last one go through the cipher, and `tail` deals with the last
one and with what comes after it. -/
def steal (c : BlockCipher α S n) (tail : S → List α → List α → List α) (s : S)
    (xs : List α) : List α :=
  (c.run s (heads n xs)).1 ++ tail (c.run s (heads n xs)).2 (lastBlock n xs) (rest n xs)

/-- A message of at least one block, encrypted. -/
def encSteal (c : BlockCipher α S n) : S → List α → List α := c.steal c.encTail

/-- A message of at least one block, decrypted. -/
def decSteal (c : BlockCipher α S n) : S → List α → List α := c.steal c.decTail

section
variable {c d : BlockCipher α S n} {tail : S → List α → List α → List α} {s : S}

variable {xs last ys : List α}

/-- The message of blocks `xs`, a block `last` and less than a block `ys`. -/
theorem steal_cut (hxs : n ∣ xs.length) (hlast : last.length = n) (hys : ys.length < n) :
    c.steal tail s (xs ++ (last ++ ys)) = (c.run s xs).1 ++ tail (c.run s xs).2 last ys := by
  obtain ⟨hheads, hblock, hrest⟩ := cut_append hxs hlast hys
  rw [steal, hheads, hblock, hrest]

/-- Blocks in front of a message go through the cipher first. -/
theorem steal_append (hn : 0 < n) (hxs : n ∣ xs.length) (hys : n ≤ ys.length) :
    c.steal tail s (xs ++ ys) = (c.run s xs).1 ++ c.steal tail (c.run s xs).2 ys := by
  have hheads := dvd_length_heads n ys
  have hrest : (rest n ys).length < n := by
    rw [length_rest]
    exact Nat.mod_lt _ hn
  conv_lhs => rw [← heads_append_lastBlock_append_rest hys hn, ← append_assoc]
  rw [steal_cut (length_append ▸ Nat.dvd_add hxs hheads) (length_lastBlock hys hn) hrest,
    c.run_append hn s hxs hheads, steal, append_assoc]

/-- The stolen tail is as long as its input. -/
theorem length_stealTail (c : BlockCipher α S n) (first second s : S) (hlast : last.length = n)
    (hys : ys.length < n) :
    (c.stealTail first second s last ys).length = n + ys.length := by
  have hblock := c.length_crypt first last hlast
  rw [stealTail]
  split
  · next hnil => rw [c.length_crypt s last hlast, hnil, length_nil, add_zero]
  · rw [length_append, c.length_crypt, length_take, hblock, min_eq_left hys.le]
    rw [length_append, length_drop, hblock]
    omega

/-- A message keeps its length. -/
theorem length_steal (hn : 0 < n)
    (htail : ∀ s last ys, last.length = n → ys.length < n → (tail s last ys).length = n + ys.length)
    (hxs : n ≤ xs.length) :
    (c.steal tail s xs).length = xs.length := by
  have hrest : (rest n xs).length < n := by
    rw [length_rest]
    exact Nat.mod_lt _ hn
  have hcut := congrArg length (heads_append_lastBlock_append_rest hxs hn)
  rw [length_append, length_append, length_lastBlock hxs hn] at hcut
  rw [steal, length_append, c.length_run hn s (dvd_length_heads n xs),
    htail _ _ _ (length_lastBlock hxs hn) hrest, hcut]

/-- The last full block of a ciphertext, decrypted with the later state, gives back the
stolen end of the block before it, and so that block. -/
theorem Undoes.decTail_encTail (h : d.Undoes c) (hlast : last.length = n) (hys : ys.length < n)
    {C B : List α} (hC : C.length = n) (htail : c.encTail s last ys = C ++ B) :
    d.decTail s C B = last ++ ys := by
  have hblock := c.length_crypt s last hlast
  have hlen := congrArg length htail
  rw [encTail, length_stealTail c _ _ _ hlast hys, length_append, hC] at hlen
  have hB : B.length = ys.length := by omega
  by_cases hnil : ys = []
  · have hBnil : B = [] := length_eq_zero_iff.mp (by rw [hB, hnil, length_nil])
    rw [encTail, stealTail, if_pos hnil, hBnil, append_nil] at htail
    rw [decTail, stealTail, if_pos hBnil, ← htail, h.crypt_crypt s last hlast, hnil, append_nil]
  · have hfull : (ys ++ (c.crypt s last).drop ys.length).length = n := by
      rw [length_append, length_drop, hblock]
      omega
    rw [encTail, stealTail, if_neg hnil] at htail
    obtain ⟨hCeq, hBeq⟩ := append_inj htail (by rw [c.length_crypt _ _ hfull, hC])
    have hBne : B ≠ [] := fun hBnil => hnil (length_eq_zero_iff.mp (by
      rw [← hB, hBnil, length_nil]))
    -- Decrypting the last full block shows `ys` and the stolen end of the block before it.
    have hopen : d.crypt (d.next s) C = ys ++ (c.crypt s last).drop ys.length := by
      rw [← hCeq, h.next_eq, h.crypt_crypt _ _ hfull]
    rw [decTail, stealTail, if_neg hBne, hopen, hB, drop_left, take_left, ← hBeq,
      take_append_drop, h.crypt_crypt s last hlast]

/-- Decryption gives back the message. -/
theorem Undoes.decSteal_encSteal (h : d.Undoes c) (hn : 0 < n) (hxs : n ≤ xs.length) :
    d.decSteal s (c.encSteal s xs) = xs := by
  have hheads := dvd_length_heads n xs
  have hlast := length_lastBlock hxs hn
  have hrest : (rest n xs).length < n := by
    rw [length_rest]
    exact Nat.mod_lt _ hn
  have htail : (c.encTail (c.run s (heads n xs)).2 (lastBlock n xs) (rest n xs)).length
      = n + (rest n xs).length := length_stealTail c _ _ _ hlast hrest
  have hC : (take n (c.encTail (c.run s (heads n xs)).2 (lastBlock n xs)
      (rest n xs))).length = n := length_take_of_le (by omega)
  have hB : (drop n (c.encTail (c.run s (heads n xs)).2 (lastBlock n xs)
      (rest n xs))).length < n := by
    rw [length_drop]
    omega
  conv_lhs =>
    rw [encSteal, steal, ← take_append_drop n (c.encTail _ _ _)]
  rw [decSteal, steal_cut (by rwa [c.length_run hn s hheads]) hC hB, h.run_run hn s hheads,
    h.decTail_encTail hlast hrest hC (take_append_drop n _).symm,
    heads_append_lastBlock_append_rest hxs hn]

end

end BlockCipher

end OpenCryptoki.Lib
