import OpenCryptoki.Lib.Region

/-!
# `OpenCryptoki.Lib.Checked`: functions that access memory

A function that works on regions either returns a value, or stops early. It stops with a return
code, or with a `fault`: an access outside its regions. `access` is an access and `check` is a
test that returns a code.

`Safe x Q` says that `x` does not fault and that `Q` holds of the value it returns. The rules
under it follow the way such functions are put together, so a proof of `Safe` has one step for
each statement of the function. `Yields x Q` is the half of it that is about the value. `NoRc x`
says that `x` returns no code; with `Safe` it gives a value.
-/

set_option autoImplicit false

namespace OpenCryptoki.Lib

/-- Why a function has stopped before its end: an access outside its regions, or a return
code. -/
inductive Halt (ε : Type)
  | fault
  | rc (rc : ε)
  deriving DecidableEq, Repr

variable {ε α β : Type}

/-- Go on with what an access to a region gives. -/
def access : Option α → Except (Halt ε) α
  | none   => .error .fault
  | some a => .ok a

/-- Go on if the condition holds, and return `rc` otherwise. -/
def check (p : Prop) [Decidable p] (rc : ε) : Except (Halt ε) Unit :=
  if p then .ok () else .error (.rc rc)

/-- An access inside its object succeeds. -/
@[simp] theorem access_some (a : α) : access (some a) = (.ok a : Except (Halt ε) α) := rfl

/-- An access succeeds exactly when it is inside. -/
theorem access_eq_ok {o : Option α} {a : α} :
    access o = (.ok a : Except (Halt ε) α) ↔ o = some a := by
  cases o with
  | none => exact iff_of_false nofun nofun
  | some b => rw [access_some, Except.ok.injEq, Option.some.injEq]

/-- What follows a success is done. -/
@[simp] theorem ok_bind (a : α) (f : α → Except ε β) : (Except.ok a >>= f) = f a := rfl

/-- Nothing follows an error. -/
@[simp] theorem error_bind (e : ε) (f : α → Except ε β) : (Except.error e >>= f) = .error e := rfl

/-- What follows an access inside its object is done. -/
theorem access_bind (a : α) (f : α → Except (Halt ε) β) : (access (some a) >>= f) = f a := rfl

/-- A computation that returns, in its two parts. -/
theorem bind_eq_ok {x : Except ε α} {f : α → Except ε β} {b : β} :
    x >>= f = .ok b ↔ ∃ a, x = .ok a ∧ f a = .ok b := by
  cases x with
  | error e =>
    constructor
    · intro h
      cases h
    · rintro ⟨a, ha, -⟩
      cases ha
  | ok a =>
    constructor
    · exact fun h => ⟨a, rfl, h⟩
    · rintro ⟨a', ha', h⟩
      cases ha'
      exact h

section
variable {c : Prop} [Decidable c] {e : ε} {x : Except ε α} {a : α}

/-- Success behind a condition that must not hold. -/
theorem ite_error_left_eq_ok : (if c then .error e else x) = .ok a ↔ ¬ c ∧ x = .ok a := by
  by_cases hc : c <;> simp [hc]

/-- Success behind a condition that must hold. -/
theorem ite_error_right_eq_ok : (if c then x else .error e) = .ok a ↔ c ∧ x = .ok a := by
  by_cases hc : c <;> simp [hc]

end

section
variable {x : Except ε α} {f : α → Except ε β} {e : ε}

/-- A sequence avoids an error exactly when both of its parts do. -/
theorem bind_ne_error_iff :
    (x >>= f) ≠ .error e ↔ x ≠ .error e ∧ ∀ a, x = .ok a → f a ≠ .error e := by
  cases x with
  | ok a =>
    rw [ok_bind]
    exact ⟨fun h => ⟨nofun, fun a' ha' => by cases ha'; exact h⟩, fun h => h.2 a rfl⟩
  | error e' =>
    rw [error_bind, ne_eq, ne_eq, Except.error.injEq, Except.error.injEq]
    exact (and_iff_left nofun).symm

/-- A sequence whose second part never fails that way. -/
theorem bind_ne_error_iff_left (hf : ∀ a, f a ≠ .error e) : (x >>= f) ≠ .error e ↔ x ≠ .error e :=
  bind_ne_error_iff.trans (and_iff_left fun a _ => hf a)

end

section
variable {p : Prop} [Decidable p]

/-- A check that holds passes. -/
theorem check_of (h : p) (rc : ε) : check p rc = .ok () := if_pos h

/-- A check that does not hold returns its code. -/
theorem check_of_not (h : ¬ p) (rc : ε) : check p rc = .error (.rc rc) := if_neg h

/-- What follows a check that holds is done. -/
theorem check_bind (h : p) (rc : ε) (f : Unit → Except (Halt ε) α) : (check p rc >>= f) = f () := by
  rw [check_of h, ok_bind]

/-- Nothing follows a check that does not hold. -/
theorem check_bind_not (h : ¬ p) (rc : ε) (f : Unit → Except (Halt ε) α) :
    (check p rc >>= f) = .error (.rc rc) := by
  rw [check_of_not h, error_bind]

/-- The trivial check passes. -/
@[simp] theorem check_true [Decidable True] (rc : ε) : check True rc = .ok () := if_pos trivial

/-- A check returns no code but its own. -/
theorem check_ne_rc {rc rc' : ε} (h : rc ≠ rc') : check p rc ≠ .error (.rc rc') := by
  rw [check]
  split
  · exact nofun
  · rintro heq
    cases heq
    exact h rfl

/-- A check passes exactly when its condition holds. -/
theorem check_eq_ok {rc : ε} : check p rc = .ok () ↔ p := by
  rw [check]
  split
  · exact iff_of_true rfl ‹p›
  · exact iff_of_false nofun ‹¬ p›

/-- A check in front of a computation. -/
theorem check_bind_eq_ok {rc : ε} {f : Unit → Except (Halt ε) α} {a : α} :
    (check p rc >>= f) = .ok a ↔ p ∧ f () = .ok a := by
  by_cases h : p
  · rw [check_bind h]
    exact (and_iff_right h).symm
  · rw [check_bind_not h]
    exact iff_of_false nofun fun hp => h hp.1

end

/-! ### Safety -/

/-- The function stays inside its regions, and what it returns satisfies `Q`. -/
def Safe (x : Except (Halt ε) α) (Q : α → Prop) : Prop :=
  match x with
  | .ok a    => Q a
  | .error e => e ≠ .fault

namespace Safe

variable {x : Except (Halt ε) α} {P Q : α → Prop}

/-- Safe code does not fault. -/
theorem ne_fault (h : Safe x Q) : x ≠ .error .fault := by
  rintro rfl
  exact h rfl

/-- Returning a code is safe. -/
theorem rc (rc : ε) : Safe (.error (.rc rc)) Q := nofun

/-- One statement after the other. -/
theorem bind {f : α → Except (Halt ε) β} {R : β → Prop} (hx : Safe x Q)
    (hf : ∀ a, Q a → Safe (f a) R) : Safe (x >>= f) R := by
  cases x with
  | ok a => exact hf a hx
  | error e => exact hx

/-- A weaker postcondition. -/
theorem mono (hx : Safe x P) (h : ∀ a, P a → Q a) : Safe x Q := by
  cases x with
  | ok a => exact h a hx
  | error e => exact hx

/-- Behind a check its condition holds. -/
theorem check {p : Prop} [Decidable p] (rc : ε) : Safe (check p rc) fun _ => p := by
  by_cases h : p
  · rw [check_of h]
    exact h
  · rw [check_of_not h]
    exact Safe.rc rc

/-- A run of steps keeps what every step keeps. -/
theorem foldlM {f : α → β → Except (Halt ε) α} (hf : ∀ a b, Q a → Safe (f a b) Q) (bs : List β)
    {a : α} (ha : Q a) : Safe (bs.foldlM f a) Q := by
  induction bs generalizing a with
  | nil => exact ha
  | cons b bs ih =>
    rw [List.foldlM_cons]
    exact (hf a b ha).bind fun a' ha' => ih ha'

variable {b xs : List α} {off n : Nat}

/-- A read inside the object is safe and returns `n` elements. -/
theorem read (h : off + n ≤ b.length) :
    Safe (access (readAt b off n) : Except (Halt ε) (List α)) fun xs => xs.length = n := by
  have hread := readAt_eq_some h
  rw [hread]
  exact length_of_readAt hread

/-- A write inside the object is safe and keeps its length. -/
theorem write (h : off + xs.length ≤ b.length) :
    Safe (access (writeAt b off xs) : Except (Halt ε) (List α)) fun b' => b'.length = b.length := by
  have hwrite : writeAt b off xs = some (b.take off ++ (xs ++ b.drop (off + xs.length))) :=
    if_pos (.inr h)
  rw [hwrite]
  exact length_of_writeAt hwrite

end Safe

/-! ### What a function returns -/

/-- What the function returns satisfies `Q`, if it returns. -/
def Yields (x : Except ε α) (Q : α → Prop) : Prop := ∀ a, x = .ok a → Q a

/-- Safe code does not fault, and what it yields meets the postcondition. -/
theorem safe_iff {x : Except (Halt ε) α} {Q : α → Prop} :
    Safe x Q ↔ x ≠ .error .fault ∧ Yields x Q := by
  match x with
  | .ok a => exact ⟨fun h => ⟨nofun, fun b hb => by cases hb; exact h⟩, fun h => h.2 a rfl⟩
  | .error .fault => exact ⟨fun h => absurd rfl h, fun h => absurd rfl h.1⟩
  | .error (.rc rc) => exact ⟨fun _ => ⟨nofun, nofun⟩, fun _ => Safe.rc rc⟩

namespace Yields

variable {x : Except ε α} {Q : α → Prop} {R : β → Prop} {f : α → Except ε β}

/-- A value that meets the postcondition. -/
theorem ok {a : α} (h : Q a) : Yields (.ok a : Except ε α) Q := by
  intro b hb
  cases hb
  exact h

/-- The second part starts from what the first part yields. -/
theorem bind (hx : Yields x Q) (hf : ∀ a, Q a → Yields (f a) R) : Yields (x >>= f) R := by
  cases x with
  | ok a => exact hf a (hx a rfl)
  | error e => exact nofun

/-- Only the statements after `x` matter. -/
theorem last (hf : ∀ a, Yields (f a) R) : Yields (x >>= f) R := by
  cases x with
  | ok a => exact hf a
  | error e => exact nofun

end Yields

/-! ### Functions that return no code -/

/-- The function ends with a value or in a fault. -/
def NoRc (x : Except (Halt ε) α) : Prop := ∀ rc, x ≠ .error (.rc rc)

namespace NoRc

/-- A success is no return code. -/
theorem ok (a : α) : NoRc (.ok a : Except (Halt ε) α) := nofun

/-- An access returns no code. -/
theorem access (o : Option α) : NoRc (access o : Except (Halt ε) α) := by
  cases o <;> exact nofun

variable {x : Except (Halt ε) α}

/-- A sequence of parts that return no code. -/
theorem bind {f : α → Except (Halt ε) β} (hx : NoRc x) (hf : ∀ a, NoRc (f a)) : NoRc (x >>= f) := by
  cases x with
  | ok a => exact hf a
  | error e =>
    intro rc h
    cases h
    exact hx rc rfl

/-- Without a fault there is a value. -/
theorem exists_eq_ok (hx : NoRc x) (h : x ≠ .error .fault) : ∃ a, x = .ok a := by
  match x with
  | .ok a => exact ⟨a, rfl⟩
  | .error .fault => exact absurd rfl h
  | .error (.rc rc) => exact absurd rfl (hx rc)

end NoRc

end OpenCryptoki.Lib
