import OpenCryptoki.Lib.BlockMap
import OpenCryptoki.Lib.Bytes
import OpenCryptoki.Lib.Xor

/-!
# `OpenCryptoki.Lib.Ctr`: counter mode

`ctrFrom n E count i xs` masks the blocks of `xs` with the encrypted counter blocks `count i`,
`count (i + 1)` and so on. How the counter blocks are made is up to `count`.

The output depends on the counter blocks that are used and on nothing else (`ctrFrom_congr`), data
can be cut at block boundaries (`ctrFrom_append`), and to mask twice is to do nothing
(`ctrFrom_ctrFrom`). The output tells the encrypted counter blocks apart (`mask_eq_of_ctrFrom_eq`).
-/

set_option autoImplicit false

namespace OpenCryptoki.Lib

/-- One block is masked, and the index goes up. -/
def ctrStep (E : List UInt8 → List UInt8) (count : Nat → List UInt8) (i : Nat) (b : List UInt8) :
    List UInt8 × Nat :=
  (xorBytes b (E (count i)), i + 1)

/-- The blocks of `xs`, masked with the counter blocks from index `i` on. -/
def ctrFrom (n : Nat) (E : List UInt8 → List UInt8) (count : Nat → List UInt8) (i : Nat)
    (xs : List UInt8) : List UInt8 :=
  (mapBlocks n (ctrStep E count) i xs).1

section
variable {n i : Nat} {E : List UInt8 → List UInt8} {count count' : Nat → List UInt8}

/-- No data gives no output. -/
@[simp] theorem ctrFrom_nil : ctrFrom n E count i [] = [] := by
  simp [ctrFrom]

/-- The first block. -/
theorem ctrFrom_block (hn : 0 < n) {b xs : List UInt8} (hb : b.length = n) (hxs : n ∣ xs.length) :
    ctrFrom n E count i (b ++ xs) = xorBytes b (E (count i)) ++ ctrFrom n E count (i + 1) xs := by
  unfold ctrFrom
  rw [mapBlocks_cons hn hb hxs]
  rfl

/-- One block more. -/
theorem length_block_append_div (hn : 0 < n) {b : List UInt8} (xs : List UInt8)
    (hb : b.length = n) : (b ++ xs).length / n = xs.length / n + 1 := by
  rw [List.length_append, hb, Nat.add_div_left _ hn]

/-- Only the counter blocks that are used matter. -/
theorem ctrFrom_congr (hn : 0 < n) {xs : List UInt8} (hxs : n ∣ xs.length) :
    ∀ {i i' : Nat}, (∀ j < xs.length / n, count (i + j) = count' (i' + j)) →
      ctrFrom n E count i xs = ctrFrom n E count' i' xs := by
  induction xs, hxs using blocks_induction with
  | nil =>
    intro i i' _
    simp
  | block b xs hb hxs ih =>
    intro i i' hcount
    rw [length_block_append_div hn xs hb] at hcount
    have hfirst : count i = count' i' := hcount 0 (Nat.succ_pos _)
    have hrest : ∀ j < xs.length / n, count (i + 1 + j) = count' (i' + 1 + j) := by
      intro j hj
      have := hcount (j + 1) (Nat.succ_lt_succ hj)
      rwa [add_comm j 1, ← add_assoc, ← add_assoc] at this
    rw [ctrFrom_block hn hb hxs, ctrFrom_block hn hb hxs, hfirst, ih hrest]

/-- Data can be cut at block boundaries. -/
theorem ctrFrom_append (hn : 0 < n) {xs ys : List UInt8} (hxs : n ∣ xs.length)
    (hys : n ∣ ys.length) :
    ∀ {i : Nat}, ctrFrom n E count i (xs ++ ys) =
      ctrFrom n E count i xs ++ ctrFrom n E count (i + xs.length / n) ys := by
  induction xs, hxs using blocks_induction with
  | nil =>
    intro i
    simp
  | block b xs hb hxs ih =>
    intro i
    have hdvd : n ∣ (xs ++ ys).length := by
      rw [List.length_append]
      exact Nat.dvd_add hxs hys
    rw [List.append_assoc, ctrFrom_block hn hb hdvd, ctrFrom_block hn hb hxs, ih,
      length_block_append_div hn xs hb, List.append_assoc, add_comm (xs.length / n) 1,
      add_assoc]

section
variable (hE : ∀ i, (E (count i)).length = n)
include hE

/-- The output is as long as the data. -/
theorem length_ctrFrom (hn : 0 < n) {xs : List UInt8} (hxs : n ∣ xs.length) :
    (ctrFrom n E count i xs).length = xs.length :=
  length_mapBlocks hn (fun i b hb => by
    show (xorBytes b (E (count i))).length = n
    rw [length_xorBytes_of_eq ((hE i).trans hb.symm), hb]) hxs

/-- To mask twice is to do nothing. -/
theorem ctrFrom_ctrFrom (hn : 0 < n) {xs : List UInt8} (hxs : n ∣ xs.length) :
    ctrFrom n E count i (ctrFrom n E count i xs) = xs := by
  have hlen : ∀ i b, b.length = n → (ctrStep E count i b).1.length = n := by
    intro i b hb
    show (xorBytes b (E (count i))).length = n
    rw [length_xorBytes_of_eq ((hE i).trans hb.symm), hb]
  have hback : ∀ i b, b.length = n →
      ctrStep E count i (ctrStep E count i b).1 = (b, (ctrStep E count i b).2) := by
    intro i b hb
    show (xorBytes (xorBytes b (E (count i))) (E (count i)), i + 1) = (b, i + 1)
    rw [xorBytes_xorBytes ((hE i).trans hb.symm)]
  exact congrArg Prod.fst (mapBlocks_inverse hn hlen hback hxs)

end

/-- The first block of the output is made of the first encrypted counter block. -/
theorem mask_eq_of_ctrFrom_eq {i' : Nat} (hn : 0 < n) (hE : ∀ i, (E (count i)).length = n)
    (hE' : ∀ i, (E (count' i)).length = n) {b xs : List UInt8} (hb : b.length = n)
    (hxs : n ∣ xs.length)
    (h : ctrFrom n E count i (b ++ xs) = ctrFrom n E count' i' (b ++ xs)) :
    E (count i) = E (count' i') := by
  have hmask : ∀ c : List UInt8, c.length = n → xorBytes b (xorBytes b c) = c := by
    intro c hc
    rw [xorBytes_comm b c, xorBytes_comm b, xorBytes_xorBytes (hb.trans hc.symm)]
  rw [ctrFrom_block hn hb hxs, ctrFrom_block hn hb hxs] at h
  have hlen : (xorBytes b (E (count i))).length = (xorBytes b (E (count' i'))).length := by
    simp only [length_xorBytes, hE, hE']
  have hfirst := (List.append_inj h hlen).1
  rw [← hmask _ (hE i), ← hmask _ (hE' i')]
  exact congrArg (xorBytes b) hfirst

end

end OpenCryptoki.Lib
