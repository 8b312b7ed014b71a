import NormalOrder.Term.Basic

/-!
# Fresh names, renaming and substitution

A fresh name is a stem followed by the least positive number that makes it new. The stem is the name
without the digits at its end, so `x1` becomes `x2` and not `x11`; a name that is all digits is its
own stem.

Renaming gives the free occurrences of a variable another name. Binders are left as they are, so the
new name has to be one that the term does not use.

Substitution of a term for a variable avoids capture. A binder is renamed only if it would capture:
the variable occurs free in its body, and the binder's name occurs free in the substituted term. The
renaming is itself a substitution, of a variable for the old name, and is followed by the one asked
for. This ends because a substitution of a variable keeps the size of a term, which is proved along
with the definition.

Before a definition is put under binders, it is protected: its free variables of their names become
references, which no binder captures.
-/

namespace NormalOrder

namespace Fresh

def isAsciiDigit (c : Char) : Bool := '0' ≤ c && c ≤ '9'

def stem (name : String) : String :=
  let kept := (name.toList.reverse.dropWhile isAsciiDigit).reverse
  if kept.isEmpty then name else String.ofList kept

/-- The first index from `i` on, among `fuel + 1` of them, whose name is not to be avoided. -/
def search (stem : String) (avoid : List String) : Nat → Nat → Nat
  | 0, i => i
  | fuel + 1, i => if stem ++ toString i ∈ avoid then search stem avoid fuel (i + 1) else i

end Fresh

/-- The first of `stem1`, `stem2`, … not in `avoid`: of one more than `avoid.length` candidates, one
is not in it. -/
def freshName (name : String) (avoid : List String) : String :=
  let stem := Fresh.stem name
  stem ++ toString (Fresh.search stem avoid avoid.length 1)

namespace Term

def rename (t : Term) (old new : String) : Term :=
  match t with
  | var x => if x = old then var new else var x
  | ref x => ref x
  | lam x b => if x = old then lam x b else lam x (b.rename old new)
  | app f a => app (f.rename old new) (a.rename old new)

@[simp] theorem size_rename (t : Term) (old new : String) : (t.rename old new).size = t.size := by
  induction t with
  | var x => unfold rename; split <;> rfl
  | ref x => rfl
  | lam x b ih => unfold rename; split <;> simp [size, ih]
  | app f a ihf iha => simp [rename, size, ihf, iha]

/-- Substitution of `s`, whose free variables are `free`, for `x` in `t`. -/
def substituteWith (t : Term) (x : String) (s : Term) (free : List String) :
    { u : Term // ∀ y, s = var y → u.size = t.size } :=
  match t with
  | var y =>
    if y = x then ⟨s, fun _ h => by rw [h]; rfl⟩ else ⟨var y, fun _ _ => rfl⟩
  | ref y => ⟨ref y, fun _ _ => rfl⟩
  | app f a =>
    let f' := substituteWith f x s free
    let a' := substituteWith a x s free
    ⟨app f'.1 a'.1, fun y h => by simp only [size, f'.2 y h, a'.2 y h]⟩
  | lam p b =>
    if p = x then ⟨lam p b, fun _ _ => rfl⟩
    else if x ∉ b.free then ⟨lam p b, fun _ _ => rfl⟩
    else if p ∈ free then
      let q := freshName p (b.free ++ free ++ [x])
      match substituteWith b p (var q) [q] with
      | ⟨renamed, same⟩ =>
        have same := same q rfl
        let c := substituteWith renamed x s free
        ⟨lam q c.1, fun y h => by simp only [size, c.2 y h, same]⟩
    else
      let c := substituteWith b x s free
      ⟨lam p c.1, fun y h => by simp only [size, c.2 y h]⟩
termination_by t.size
decreasing_by all_goals (simp only [size]; omega)

/-- `t` with `s` for every free occurrence of the variable `x`. -/
def substitute (t : Term) (x : String) (s : Term) : Term :=
  (substituteWith t x s s.free).1

/-- A variable substituted for a variable changes no shape. -/
theorem size_substitute_var (t : Term) (x y : String) :
    (t.substitute x (var y)).size = t.size :=
  (substituteWith t x (var y) (var y).free).2 y rfl

section Equations

variable (x : String) (s : Term)

theorem substitute_var (y : String) :
    (var y).substitute x s = if y = x then s else var y := by
  unfold substitute
  rw [substituteWith]
  split <;> rfl

theorem substitute_ref (y : String) : (ref y).substitute x s = ref y := by
  unfold substitute
  rw [substituteWith]

theorem substitute_app (f a : Term) :
    (app f a).substitute x s = app (f.substitute x s) (a.substitute x s) := by
  unfold substitute
  rw [substituteWith]

theorem substitute_lam (p : String) (b : Term) :
    (lam p b).substitute x s =
      if p = x then lam p b
      else if x ∉ b.free then lam p b
      else if p ∈ s.free then
        let q := freshName p (b.free ++ s.free ++ [x])
        lam q ((b.substitute p (var q)).substitute x s)
      else lam p (b.substitute x s) := by
  unfold substitute
  rw [substituteWith]
  split
  · rfl
  · split
    · rfl
    · split <;> rfl

end Equations

def protect (names : List String) : Term → Term
  | var x => if x ∈ names then ref x else var x
  | ref x => ref x
  | lam x b => lam x (b.protect (names.filter (· ≠ x)))
  | app f a => app (f.protect names) (a.protect names)

@[simp] theorem protect_nil (t : Term) : t.protect [] = t := by
  induction t with
  | var x => simp [protect]
  | ref x => rfl
  | lam x b ih => simp [protect, ih]
  | app f a ihf iha => simp [protect, ihf, iha]

end Term

end NormalOrder
