/-
Reduction of lexically scoped trees, against which that of forms is
measured. It is capture avoiding by construction, since a tree lifts as
it passes under a binder, and it knows neither types nor contexts nor
fresh indices. Where the variable being replaced heads an application,
the replacement is applied to the reduced arguments from left to right;
applying a lambda goes on reducing, and applying anything else builds an
application.

Trees are not typed, so reduction need not end, and it is unfolded `n`
times here. `Reduces` does not mention the number, and rightly so: more
unfolding does not change a result (`applyWithin_mono`), so a reduction
has at most one (`Reduces.unique`).
-/
import LogicalForm.Proofs.Scoped

namespace LogicalForm

namespace Scoped

-- =========================================================== reduction

/-- How a tree is applied to another, where it can be. -/
abbrev Application := Scoped → Scoped → Option Scoped

/-- The tree is the bound variable with that number. -/
def isBound (k : Nat) : Scoped → Bool
  | .bound i => i = k
  | _ => false

mutual
/-- The tree with `a` for the variable `k`, which has lost its binder. -/
def instantiate (apply : Application) (a : Scoped) (k : Nat) :
    Scoped → Option Scoped
  | .bound i =>
    if i < k then some (.bound i)
    else if i = k then some (a.lift k 0)
    else some (.bound (i - 1))
  | .atom b => some (.atom b)
  | .lambda type body =>
    (instantiate apply a (k + 1) body).map (.lambda type)
  | .binder op args =>
    (instantiateAll apply a (k + 1) args).map (.binder op)
  | .app head args =>
    (instantiateAll apply a k args).bind fun args' =>
      if head.isBound k then args'.foldlM apply (a.lift k 0)
      else (instantiate apply a k head).map fun head' => .app head' args'
/-- The trees with `a` for the variable `k`. -/
def instantiateAll (apply : Application) (a : Scoped) (k : Nat) :
    List Scoped → Option (List Scoped)
  | [] => some []
  | t :: ts =>
    (instantiate apply a k t).bind fun t' =>
      (instantiateAll apply a k ts).map (t' :: ·)
end

/-- One step of application: a lambda takes the argument for its
variable, anything else becomes the head of an application. -/
def applyStep (apply : Application) : Application
  | .lambda _ body, a => instantiate apply a 0 body
  | f, a => some (.app f [a])

/-- Application unfolded `n` times. -/
def applyWithin : Nat → Application
  | 0 => fun _ _ => none
  | n + 1 => applyStep (applyWithin n)

/-- Applying `f` to `a` gives `r`. -/
def Reduces (f a r : Scoped) : Prop := ∃ n, applyWithin n f a = some r

-- ======================================================== determinism

/-- Induction over trees, with one hypothesis about all members of a list
of arguments. -/
theorem ind {motive : Scoped → Prop}
    (bound : ∀ i, motive (.bound i)) (atom : ∀ a, motive (.atom a))
    (lambda : ∀ type body, motive body → motive (.lambda type body))
    (binder : ∀ op args, (∀ t ∈ args, motive t) → motive (.binder op args))
    (app : ∀ head args, motive head → (∀ t ∈ args, motive t) →
      motive (.app head args)) : ∀ t, motive t := fun t =>
  Scoped.rec (motive_1 := motive) (motive_2 := fun ts => ∀ t ∈ ts, motive t)
    bound atom lambda binder app
    (fun _ h => nomatch h)
    (fun _ _ first rest => fun _ h => by
      cases h with
      | head => exact first
      | tail _ h => exact rest _ h)
    t

/-- `apply'` gives every result that `apply` gives. -/
def Extends (apply' apply : Application) : Prop :=
  ∀ f a r, apply f a = some r → apply' f a = some r

section

variable {apply apply' : Application} (hext : Extends apply' apply)

include hext

/-- More ways to apply give the results of several applications in turn as
well. -/
theorem Extends.foldlM {as : List Scoped} {f r : Scoped}
    (h : as.foldlM apply f = some r) : as.foldlM apply' f = some r := by
  induction as generalizing f with
  | nil => exact h
  | cons a as ih =>
      rw [List.foldlM_cons] at h ⊢
      obtain ⟨g, hg, h⟩ := Option.bind_eq_some_iff.1 h
      exact Option.bind_eq_some_iff.2 ⟨g, hext f a g hg, ih h⟩

/-- More ways to apply give the results of an instantiation as well. -/
theorem Extends.instantiate {a : Scoped} {k : Nat} {t r : Scoped}
    (h : instantiate apply a k t = some r) :
    Scoped.instantiate apply' a k t = some r := by
  have all : ∀ ts : List Scoped,
      (∀ t ∈ ts, ∀ {k : Nat} {r : Scoped},
        Scoped.instantiate apply a k t = some r →
        Scoped.instantiate apply' a k t = some r) →
      ∀ {k : Nat} {rs : List Scoped}, instantiateAll apply a k ts = some rs →
        instantiateAll apply' a k ts = some rs := by
    intro ts
    induction ts with
    | nil =>
        intro _ k rs h
        exact h
    | cons t ts ih =>
        intro hts k rs h
        rw [instantiateAll] at h ⊢
        obtain ⟨t', ht, h⟩ := Option.bind_eq_some_iff.1 h
        obtain ⟨ts', hall, h⟩ := Option.map_eq_some_iff.1 h
        rw [hts t (List.mem_cons_self ..) ht, Option.bind_some,
          ih (fun u hu => hts u (List.mem_cons_of_mem _ hu)) hall,
          Option.map_some, h]
  induction t using Scoped.ind generalizing k r with
  | bound i => exact h
  | atom b => exact h
  | lambda type body ih =>
      rw [Scoped.instantiate] at h ⊢
      obtain ⟨body', hbody, h⟩ := Option.map_eq_some_iff.1 h
      rw [ih hbody, Option.map_some, h]
  | binder op args ih =>
      rw [Scoped.instantiate] at h ⊢
      obtain ⟨args', hargs, h⟩ := Option.map_eq_some_iff.1 h
      rw [all args ih hargs, Option.map_some, h]
  | app head args ihHead ihArgs =>
      rw [Scoped.instantiate] at h ⊢
      obtain ⟨args', hargs, h⟩ := Option.bind_eq_some_iff.1 h
      rw [all args ihArgs hargs, Option.bind_some]
      split at h
      · rename_i hbound
        rw [if_pos hbound]
        exact hext.foldlM h
      · rename_i hbound
        obtain ⟨head', hhead, h⟩ := Option.map_eq_some_iff.1 h
        rw [if_neg hbound, ihHead hhead, Option.map_some, h]

/-- More ways to apply give the results of one step as well. -/
theorem Extends.applyStep : Extends (applyStep apply') (applyStep apply) := by
  intro f a r h
  cases f with
  | lambda type body => exact hext.instantiate h
  | _ => exact h

end

/-- Unfolding application once more loses no result. -/
theorem extends_succ (n : Nat) :
    Extends (applyWithin (n + 1)) (applyWithin n) := by
  induction n with
  | zero =>
      intro f a r h
      cases h
  | succ n ih => exact ih.applyStep

/-- More unfolding does not change a result. -/
theorem applyWithin_mono {m n : Nat} (hmn : m ≤ n) :
    Extends (applyWithin n) (applyWithin m) := by
  induction hmn with
  | refl => exact fun f a r h => h
  | step _ ih => exact fun f a r h => extends_succ _ f a r (ih f a r h)

/-- A reduction has at most one result. -/
theorem Reduces.unique {f a r s : Scoped} (hr : Reduces f a r)
    (hs : Reduces f a s) : r = s := by
  obtain ⟨m, hm⟩ := hr
  obtain ⟨n, hn⟩ := hs
  have hr := applyWithin_mono (Nat.le_max_left m n) f a r hm
  have hs := applyWithin_mono (Nat.le_max_right m n) f a s hn
  exact Option.some.inj (hr.symm.trans hs)

end Scoped

end LogicalForm
