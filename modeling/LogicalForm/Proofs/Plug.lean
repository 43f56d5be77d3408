/-
Trees with one variable replaced by a tree `a` that is no abstraction.
Such a replacement starts no reduction, since where the variable heads an
application `a` becomes the head. So it is a total function, `plug`, and
it commutes with reduction: plugging into both operands and reducing is
reducing and plugging into the result (`Reduces.plug`).

# The two provisos

An application without arguments is dropped when its head is replaced,
and an application with several arguments becomes as many nested ones.

- `Sparing k` says that the variable is applied to one argument at most;
  then instantiating it is plugging (`eq_plug_of_instantiate`).
- `Tight` says that no application without arguments has an application
  as its head. Without it reduction may turn such a head into the variable
  that is plugged, after which the application is dropped, while plugging
  first keeps it.
-/
import LogicalForm.Proofs.Reference

namespace LogicalForm

namespace Scoped

/-- The tree is an abstraction. -/
def isLambda : Scoped → Bool
  | .lambda .. => true
  | _ => false

/-- The tree is an application. -/
def isApp : Scoped → Bool
  | .app .. => true
  | _ => false

mutual
/-- The tree with `a` for the variable `k`. Applied to nothing, the
variable stands for itself. -/
def plug (a : Scoped) (k : Nat) : Scoped → Scoped
  | .bound i =>
    if i < k then .bound i else if i = k then a.lift k 0 else .bound (i - 1)
  | .atom b => .atom b
  | .lambda type body => .lambda type (plug a (k + 1) body)
  | .binder op args => .binder op (plugAll a (k + 1) args)
  | .app head args =>
    if head.isBound k && args.isEmpty then a.lift k 0
    else .app (plug a k head) (plugAll a k args)
/-- The trees with `a` for the variable `k`. -/
def plugAll (a : Scoped) (k : Nat) : List Scoped → List Scoped
  | [] => []
  | t :: ts => plug a k t :: plugAll a k ts
end

@[simp] theorem plugAll_eq_map (a : Scoped) (k : Nat) (ts : List Scoped) :
    plugAll a k ts = ts.map (plug a k) := by
  induction ts with
  | nil => rfl
  | cons t ts ih => rw [plugAll, ih, List.map_cons]

-- ================================================== variables as heads

/-- What is recognised as the variable `k` is that variable. -/
theorem eq_bound_of_isBound {t : Scoped} {k : Nat} (h : t.isBound k = true) :
    t = .bound k := by
  cases t with
  | bound i => rw [of_decide_eq_true h]
  | _ => cases h

theorem isBound_bound_of_ne {i k : Nat} (h : i ≠ k) :
    (Scoped.bound i).isBound k = false :=
  decide_eq_false h

theorem plug_bound_lt (a : Scoped) {i k : Nat} (h : i < k) :
    plug a k (.bound i) = .bound i := by
  rw [plug, if_pos h]

theorem plug_bound_self (a : Scoped) (k : Nat) :
    plug a k (.bound k) = a.lift k 0 := by
  rw [plug, if_neg (Nat.lt_irrefl _), if_pos rfl]

theorem plug_bound_gt (a : Scoped) {i k : Nat} (h : k < i) :
    plug a k (.bound i) = .bound (i - 1) := by
  rw [plug, if_neg (by omega), if_neg (by omega)]

/-- Where the variable is not left alone, the application stays. -/
theorem plug_app {a head : Scoped} {k : Nat} {args : List Scoped}
    (h : head.isBound k = true → args ≠ []) :
    plug a k (.app head args) = .app (plug a k head) (args.map (plug a k)) := by
  rw [plug, plugAll_eq_map, if_neg]
  rw [Bool.and_eq_true, List.isEmpty_iff]
  intro hdrop
  exact h hdrop.1 hdrop.2

/-- The variable applied to nothing becomes the tree as well. -/
theorem plug_app_nil (a : Scoped) (k : Nat) :
    plug a k (.app (.bound k) []) = a.lift k 0 := by
  rw [plug, if_pos]
  simp [isBound]

-- ================================================================ lifts

/-- Lifting keeps abstractions apart from other trees. -/
theorem isLambda_lift (d c : Nat) (t : Scoped) :
    (t.lift d c).isLambda = t.isLambda := by
  cases t with
  | bound i =>
      rw [lift]
      split <;> rfl
  | _ => rfl

theorem isApp_lift (d c : Nat) (t : Scoped) :
    (t.lift d c).isApp = t.isApp := by
  cases t with
  | bound i =>
      rw [lift]
      split <;> rfl
  | _ => rfl

/-- Lifting takes the variable `k` to `k + d`, and no other there. -/
theorem isBound_lift {d c k : Nat} (h : c ≤ k) (t : Scoped) :
    (t.lift d c).isBound (d + k) = t.isBound k := by
  cases t with
  | bound i =>
      rw [lift]
      split <;> simp [isBound] <;> omega
  | _ => rfl

/-- What has been lifted past them is none of the lowest variables. -/
theorem isBound_lift_of_lt {j m : Nat} (h : j < m) (t : Scoped) :
    (t.lift m 0).isBound j = false := by
  cases t with
  | bound i =>
      rw [lift, if_neg (Nat.not_lt_zero _)]
      exact isBound_bound_of_ne (by omega)
  | _ => rfl

/-- Two lifts, the second at a place among the binders of the first, make
one. -/
theorem lift_lift {d k c c' : Nat} (hc : c ≤ c') (hc' : c' ≤ c + k)
    (t : Scoped) : (t.lift k c).lift d c' = t.lift (k + d) c := by
  induction t using Scoped.ind generalizing c c' with
  | bound i =>
      by_cases h : i < c
      · rw [lift, if_pos h, lift, if_pos (by omega), lift, if_pos h]
      · rw [lift, if_neg h, lift, if_neg (by omega), lift, if_neg h,
          Nat.add_assoc]
  | atom b => rfl
  | lambda type body ih =>
      rw [lift, lift, lift, ih (by omega) (by omega)]
  | binder op args ih =>
      simp only [lift, liftAll_eq_map, List.map_map]
      exact congrArg _ (List.map_congr_left fun t ht =>
        ih t ht (by omega) (by omega))
  | app head args ihHead ihArgs =>
      simp only [lift, liftAll_eq_map, List.map_map, ihHead hc hc']
      exact congrArg _ (List.map_congr_left fun t ht => ihArgs t ht hc hc')

/-- Lifting below the variable and plugging commute. -/
theorem plug_lift {a : Scoped} {d c k : Nat} (hc : c ≤ k) (t : Scoped) :
    plug a (d + k) (t.lift d c) = (plug a k t).lift d c := by
  induction t using Scoped.ind generalizing c k with
  | bound i =>
      rcases Nat.lt_trichotomy i k with h | rfl | h
      · rw [plug_bound_lt a h, lift]
        split
        · exact plug_bound_lt a (by omega)
        · exact plug_bound_lt a (by omega)
      · rw [plug_bound_self, lift, if_neg (by omega), Nat.add_comm i d,
          plug_bound_self, lift_lift (Nat.zero_le _) (by omega),
          Nat.add_comm d i]
      · rw [plug_bound_gt a h, lift, if_neg (by omega), lift,
          if_neg (by omega), plug_bound_gt a (by omega)]
        congr 1
        omega
  | atom b => rfl
  | lambda type body ih =>
      rw [lift, plug, plug, lift, Nat.add_assoc, ih (by omega)]
  | binder op args ih =>
      simp only [lift, plug, liftAll_eq_map, plugAll_eq_map, List.map_map,
        Nat.add_assoc]
      exact congrArg _ (List.map_congr_left fun t ht => ih t ht (by omega))
  | app head args ihHead ihArgs =>
      rw [lift, liftAll_eq_map]
      by_cases h : head.isBound k = true ∧ args = []
      · obtain ⟨hbound, rfl⟩ := h
        have hlift : (head.lift d c).isBound (d + k) = true := by
          rw [isBound_lift hc, hbound]
        rw [eq_bound_of_isBound hlift, eq_bound_of_isBound hbound,
          List.map_nil, plug_app_nil, plug_app_nil,
          lift_lift (Nat.zero_le _) (by omega), Nat.add_comm d k]
      · have hstays : head.isBound k = true → args ≠ [] :=
          fun hbound hargs => h ⟨hbound, hargs⟩
        have hstays' : (head.lift d c).isBound (d + k) = true →
            args.map (lift d c) ≠ [] := by
          rw [isBound_lift hc, ne_eq, List.map_eq_nil_iff]
          exact hstays
        rw [plug_app hstays, plug_app hstays', lift, liftAll_eq_map,
          List.map_map, List.map_map, ihHead hc]
        exact congrArg _ (List.map_congr_left fun t ht => ihArgs t ht hc)

-- ======================================================= instantiation

/-- A list is instantiated member by member. -/
theorem instantiateAll_eq_some {apply : Application} {a : Scoped} {k : Nat}
    {ts us : List Scoped} :
    instantiateAll apply a k ts = some us
      ↔ List.Forall₂ (fun t u => instantiate apply a k t = some u) ts us := by
  induction ts generalizing us with
  | nil =>
      rw [instantiateAll, List.forall₂_nil_left_iff, Option.some.injEq]
      exact eq_comm
  | cons t ts ih =>
      rw [instantiateAll, List.forall₂_cons_left_iff]
      constructor
      · intro h
        obtain ⟨u, hu, h⟩ := Option.bind_eq_some_iff.1 h
        obtain ⟨us', hus, rfl⟩ := Option.map_eq_some_iff.1 h
        exact ⟨u, us', hu, ih.1 hus, rfl⟩
      · intro h
        obtain ⟨u, us', hu, hus, rfl⟩ := h
        rw [hu, Option.bind_some, ih.2 hus]
        rfl

/-- A list that goes member by member through `f` and `g`. -/
theorem instantiateAll_map_of_forall₂ {apply : Application} {a : Scoped}
    {k : Nat} {ts us : List Scoped} {f g : Scoped → Scoped}
    (h : List.Forall₂ (fun t u => instantiate apply a k (f t) = some (g u))
      ts us) :
    instantiateAll apply a k (ts.map f) = some (us.map g) := by
  rw [instantiateAll_eq_some, List.forall₂_map_left_iff,
    List.forall₂_map_right_iff]
  exact h

/-- In what has been lifted past it the variable does not occur, so only
its place goes. -/
theorem instantiate_lift (apply : Application) {q : Scoped} {d c j : Nat}
    (hj : j ≤ d) (t : Scoped) :
    instantiate apply q (c + j) (t.lift (d + 1) c) = some (t.lift d c) := by
  induction t using Scoped.ind generalizing c with
  | bound i =>
      by_cases h : i < c
      · rw [lift, if_pos h, lift, if_pos h, instantiate, if_pos (by omega)]
      · rw [lift, if_neg h, lift, if_neg h, instantiate, if_neg (by omega),
          if_neg (by omega)]
        rfl
  | atom b => rfl
  | lambda type body ih =>
      have ih := ih (c := c + 1)
      rw [Nat.add_right_comm] at ih
      rw [lift, lift, instantiate, ih]
      rfl
  | binder op args ih =>
      have hall := instantiateAll_map_of_forall₂ (List.forall₂_same.2
        fun t ht => ih t ht (c := c + 1))
      rw [Nat.add_right_comm] at hall
      rw [lift, lift, liftAll_eq_map, liftAll_eq_map, instantiate, hall]
      rfl
  | app head args ihHead ihArgs =>
      have hall := instantiateAll_map_of_forall₂ (List.forall₂_same.2
        fun t ht => ihArgs t ht (c := c))
      have hbound : (head.lift (d + 1) c).isBound (c + j) = false := by
        cases head with
        | bound i =>
            rw [lift]
            split
            · exact isBound_bound_of_ne (by omega)
            · exact isBound_bound_of_ne (by omega)
        | _ => rfl
      rw [lift, lift, liftAll_eq_map, liftAll_eq_map, instantiate, hall,
        Option.bind_some, if_neg (by simp [hbound]), ihHead]
      rfl

/-- A tree that was lifted past the variable does not have it, so
instantiation only takes the lift back by one. -/
theorem instantiate_lift_zero (apply : Application) (q : Scoped) {d j : Nat}
    (hj : j ≤ d) (t : Scoped) :
    instantiate apply q j (t.lift (d + 1) 0) = some (t.lift d 0) := by
  have h := instantiate_lift apply (q := q) (c := 0) hj t
  rwa [Nat.zero_add] at h

/-- What is no abstraction becomes the head of an application. -/
theorem applyStep_of_isLambda {apply : Application} {f : Scoped}
    (hf : f.isLambda = false) (a : Scoped) :
    applyStep apply f a = some (.app f [a]) := by
  cases f with
  | lambda type body => cases hf
  | _ => rfl

-- ==================================================== sparing variables

/-- The variable `k` is applied to one argument at most. -/
inductive Sparing : Nat → Scoped → Prop
  | bound {k : Nat} (i : Nat) : Sparing k (.bound i)
  | atom {k : Nat} (b : Atom) : Sparing k (.atom b)
  | lambda {k : Nat} {type : Ty} {body : Scoped} :
      Sparing (k + 1) body → Sparing k (.lambda type body)
  | binder {k : Nat} {op : Builtin} {args : List Scoped} :
      (∀ t ∈ args, Sparing (k + 1) t) → Sparing k (.binder op args)
  | app {k : Nat} {head : Scoped} {args : List Scoped} :
      (head.isBound k = true → args.length ≤ 1) → Sparing k head →
      (∀ t ∈ args, Sparing k t) → Sparing k (.app head args)

section

variable {a : Scoped} (ha : a.isLambda = false)

include ha

/-- Instantiating a variable that is sparingly applied is plugging. -/
theorem eq_plug_of_instantiate {n k : Nat} {t r : Scoped}
    (ht : t.Sparing k) (h : instantiate (applyWithin n) a k t = some r) :
    r = plug a k t := by
  have all {k : Nat} {ts us : List Scoped}
      (hts : ∀ t ∈ ts, ∀ u, instantiate (applyWithin n) a k t = some u →
        u = plug a k t)
      (h : instantiateAll (applyWithin n) a k ts = some us) :
      us = ts.map (plug a k) := by
    have hpairs : List.Forall₂ (· = ·) us (ts.map (plug a k)) := by
      rw [List.forall₂_map_right_iff]
      exact (forall₂_imp_of_mem (instantiateAll_eq_some.1 h) hts).flip
    rwa [List.forall₂_eq_eq_eq] at hpairs
  induction t using Scoped.ind generalizing k r with
  | bound i =>
      rw [instantiate] at h
      rw [plug]
      split at h
      · rename_i hlt
        cases h
        rw [if_pos hlt]
      · rename_i hlt
        rw [if_neg hlt]
        split at h
        · rename_i heq
          cases h
          rw [if_pos heq]
        · rename_i heq
          cases h
          rw [if_neg heq]
  | atom b =>
      cases h
      rfl
  | lambda type body ih =>
      rw [instantiate] at h
      obtain ⟨body', hbody, rfl⟩ := Option.map_eq_some_iff.1 h
      cases ht with
      | lambda ht => rw [plug, ih ht hbody]
  | binder op args ih =>
      rw [instantiate] at h
      obtain ⟨args', hargs, rfl⟩ := Option.map_eq_some_iff.1 h
      cases ht with
      | binder ht =>
          rw [plug, plugAll_eq_map, all (fun t hmem u => ih t hmem (ht t hmem)) hargs]
  | app head args ihHead ihArgs =>
      rw [instantiate] at h
      obtain ⟨args', hargs, hrest⟩ := Option.bind_eq_some_iff.1 h
      cases ht with
      | app hlength hhead hts =>
          have hargs' := all (fun t hmem u => ihArgs t hmem (hts t hmem)) hargs
          subst hargs'
          split at hrest
          · rename_i hbound
            have hle := hlength hbound
            cases eq_bound_of_isBound hbound
            cases args with
            | nil =>
                cases hrest
                rw [plug_app_nil]
            | cons x rest =>
                cases rest with
                | cons y rest => simp at hle
                | nil =>
                    rw [plug_app fun _ => List.cons_ne_nil _ _, plug_bound_self]
                    rw [List.map_cons, List.map_nil, List.foldlM_cons] at hrest
                    obtain ⟨s, hs, hrest⟩ := Option.bind_eq_some_iff.1 hrest
                    cases hrest
                    cases n with
                    | zero => cases hs
                    | succ n =>
                        rw [applyWithin, applyStep_of_isLambda] at hs
                        · cases hs
                          rfl
                        · rw [isLambda_lift, ha]
          · rename_i hbound
            obtain ⟨head', hh, rfl⟩ := Option.map_eq_some_iff.1 hrest
            rw [plug_app fun h => absurd h hbound, ihHead hhead hh]

end

-- ========================================================= tight trees

/-- No application without arguments has an application as its head. -/
inductive Tight : Scoped → Prop
  | bound (i : Nat) : Tight (.bound i)
  | atom (b : Atom) : Tight (.atom b)
  | lambda {type : Ty} {body : Scoped} : Tight body → Tight (.lambda type body)
  | binder {op : Builtin} {args : List Scoped} :
      (∀ t ∈ args, Tight t) → Tight (.binder op args)
  | app {head : Scoped} {args : List Scoped} :
      (args = [] → head.isApp = false) → Tight head →
      (∀ t ∈ args, Tight t) → Tight (.app head args)

/-- A lift stacks no empty applications. -/
theorem Tight.lift {t : Scoped} (h : t.Tight) (d c : Nat) :
    (t.lift d c).Tight := by
  induction h generalizing c with
  | bound i =>
      rw [Scoped.lift]
      split <;> exact .bound _
  | atom b => exact .atom b
  | lambda _ ih => exact .lambda (ih (c + 1))
  | @binder op args _ ih =>
      rw [Scoped.lift, liftAll_eq_map]
      exact .binder (List.forall_mem_map.2 fun t ht => ih t ht (c + 1))
  | @app head args hhead _ _ ihHead ihArgs =>
      rw [Scoped.lift, liftAll_eq_map]
      refine .app ?_ (ihHead c) (List.forall_mem_map.2 fun t ht => ihArgs t ht c)
      rw [List.map_eq_nil_iff, isApp_lift]
      exact hhead

/-- Where nothing is replaced or reduced in the head, it stays what it
is: no application, and no variable if it was none. -/
theorem head_of_instantiate {apply : Application} {q head r : Scoped} {j : Nat}
    (happ : head.isApp = false) (hbound : head.isBound j = false)
    (h : instantiate apply q j head = some r) :
    r.isApp = false
      ∧ ∀ m, j ≤ m → head.isBound (m + 1) = false → r.isBound m = false := by
  cases head with
  | app head args => cases happ
  | bound i =>
      have hne : i ≠ j := of_decide_eq_false hbound
      rw [instantiate, if_neg hne] at h
      split at h
      · rename_i hlt
        cases h
        exact ⟨rfl, fun m hm _ => isBound_bound_of_ne (by omega)⟩
      · cases h
        refine ⟨rfl, fun m _ hm => isBound_bound_of_ne ?_⟩
        have hne' : i ≠ m + 1 := of_decide_eq_false hm
        omega
  | atom b =>
      cases h
      exact ⟨rfl, fun _ _ _ => rfl⟩
  | lambda type body =>
      rw [instantiate] at h
      obtain ⟨body', -, rfl⟩ := Option.map_eq_some_iff.1 h
      exact ⟨rfl, fun _ _ _ => rfl⟩
  | binder op args =>
      rw [instantiate] at h
      obtain ⟨args', -, rfl⟩ := Option.map_eq_some_iff.1 h
      exact ⟨rfl, fun _ _ _ => rfl⟩

/-- Applying keeps trees tight. -/
def KeepsTight (apply : Application) : Prop :=
  ∀ f q r, f.Tight → q.Tight → apply f q = some r → r.Tight

/-- Application to several trees in turn keeps trees tight if each step
does. -/
theorem KeepsTight.foldlM {apply : Application} (happly : KeepsTight apply)
    {ts : List Scoped} (hts : ∀ t ∈ ts, t.Tight) {f r : Scoped} (hf : f.Tight)
    (h : ts.foldlM apply f = some r) : r.Tight := by
  induction ts generalizing f with
  | nil =>
      cases h
      exact hf
  | cons t ts ih =>
      obtain ⟨ht, hts⟩ := List.forall_mem_cons.1 hts
      rw [List.foldlM_cons] at h
      obtain ⟨s, hs, h⟩ := Option.bind_eq_some_iff.1 h
      exact ih hts (happly f t s hf ht hs) h

/-- Instantiation keeps trees tight if the applications that it makes do. -/
theorem KeepsTight.instantiate {apply : Application} (happly : KeepsTight apply)
    {q : Scoped} (hq : q.Tight) {j : Nat} {t r : Scoped} (ht : t.Tight)
    (h : instantiate apply q j t = some r) : r.Tight := by
  have all {j : Nat} {ts us : List Scoped}
      (hts : ∀ t ∈ ts, ∀ u, Scoped.instantiate apply q j t = some u → u.Tight)
      (h : instantiateAll apply q j ts = some us) : ∀ u ∈ us, u.Tight := by
    intro u hu
    obtain ⟨t, ht, h⟩ := exists_left_of_mem (instantiateAll_eq_some.1 h) hu
    exact hts t ht u h
  induction t using Scoped.ind generalizing j r with
  | bound i =>
      rw [Scoped.instantiate] at h
      split at h
      · cases h
        exact .bound _
      · split at h
        · cases h
          exact hq.lift j 0
        · cases h
          exact .bound _
  | atom b =>
      cases h
      exact .atom b
  | lambda type body ih =>
      rw [Scoped.instantiate] at h
      obtain ⟨body', hbody, rfl⟩ := Option.map_eq_some_iff.1 h
      cases ht with
      | lambda ht => exact .lambda (ih ht hbody)
  | binder op args ih =>
      rw [Scoped.instantiate] at h
      obtain ⟨args', hargs, rfl⟩ := Option.map_eq_some_iff.1 h
      cases ht with
      | binder ht =>
          exact .binder (all (fun t hmem u => ih t hmem (ht t hmem)) hargs)
  | app head args ihHead ihArgs =>
      rw [Scoped.instantiate] at h
      obtain ⟨args', hargs, h⟩ := Option.bind_eq_some_iff.1 h
      cases ht with
      | app happ hhead hts =>
          have hargs' := all (fun t hmem u => ihArgs t hmem (hts t hmem)) hargs
          split at h
          · exact happly.foldlM hargs' (hq.lift j 0) h
          · rename_i hbound
            obtain ⟨head', hh, rfl⟩ := Option.map_eq_some_iff.1 h
            refine .app (fun hnil => ?_) (ihHead hhead hh) hargs'
            subst hnil
            have hargs : args = [] :=
              List.forall₂_nil_right_iff.1 (instantiateAll_eq_some.1 hargs)
            exact (head_of_instantiate (happ hargs) (by simpa using hbound) hh).1

/-- Application unfolded to any depth keeps trees tight. -/
theorem keepsTight_applyWithin (n : Nat) : KeepsTight (applyWithin n) := by
  induction n with
  | zero =>
      intro f q r _ _ h
      cases h
  | succ n ih =>
      intro f q r hf hq h
      cases hlambda : f.isLambda with
      | false =>
          rw [applyWithin, applyStep_of_isLambda hlambda] at h
          cases h
          refine .app (fun h => absurd h (List.cons_ne_nil _ _)) hf fun t ht => ?_
          rw [List.mem_singleton.1 ht]
          exact hq
      | true =>
          cases f with
          | lambda type body =>
              cases hf with
              | lambda hbody => exact ih.instantiate hq hbody h
          | _ => cases hlambda

-- ============================================ plugging and reduction

section

variable {a : Scoped} (ha : a.isLambda = false)

/-- Plugging takes no tree to one of the lower variables. -/
theorem isBound_plug {j m : Nat} (h : j < m) (t : Scoped) :
    (plug a m t).isBound j = t.isBound j := by
  cases t with
  | bound i =>
      rcases Nat.lt_trichotomy i m with hi | rfl | hi
      · rw [plug_bound_lt a hi]
      · rw [plug_bound_self, isBound_lift_of_lt h, isBound_bound_of_ne (by omega)]
      · rw [plug_bound_gt a hi, isBound_bound_of_ne (by omega),
          isBound_bound_of_ne (by omega)]
  | app head args =>
      rw [plug]
      split
      · rw [isBound_lift_of_lt h]
        rfl
      · rfl
  | _ => rfl

include ha in
/-- Plugging what is no abstraction makes no abstraction of another tree. -/
theorem isLambda_plug {k : Nat} {t : Scoped} (ht : t.isLambda = false) :
    (plug a k t).isLambda = false := by
  cases t with
  | bound i =>
      rcases Nat.lt_trichotomy i k with hi | rfl | hi
      · rw [plug_bound_lt a hi]
        rfl
      · rw [plug_bound_self, isLambda_lift, ha]
      · rw [plug_bound_gt a hi]
        rfl
  | app head args =>
      rw [plug]
      split
      · rw [isLambda_lift, ha]
      · rfl
  | lambda type body => cases ht
  | _ => rfl

/-- Application commutes with plugging, for tight trees. -/
def Commutes (a : Scoped) (apply : Application) : Prop :=
  ∀ f q r, f.Tight → q.Tight → apply f q = some r →
    ∀ k, apply (plug a k f) (plug a k q) = some (plug a k r)

/-- Application to several trees in turn commutes with plugging if each step
does. -/
theorem Commutes.foldlM {apply : Application} (hcomm : Commutes a apply)
    (hkeeps : KeepsTight apply) {ts : List Scoped} (hts : ∀ t ∈ ts, t.Tight)
    {f r : Scoped} (hf : f.Tight) (h : ts.foldlM apply f = some r) (k : Nat) :
    (ts.map (plug a k)).foldlM apply (plug a k f) = some (plug a k r) := by
  induction ts generalizing f with
  | nil =>
      cases h
      rfl
  | cons t ts ih =>
      obtain ⟨ht, hts⟩ := List.forall_mem_cons.1 hts
      rw [List.foldlM_cons] at h
      obtain ⟨s, hs, h⟩ := Option.bind_eq_some_iff.1 h
      rw [List.map_cons, List.foldlM_cons, hcomm f t s hf ht hs k]
      exact ih hts (hkeeps f t s hf ht hs) h

/-- The case of a variable, which is instantiated, plugged, or neither. -/
theorem instantiate_plug_bound {apply : Application} {q r : Scoped}
    {i j k : Nat} (h : instantiate apply q j (.bound i) = some r) :
    instantiate apply (plug a k q) j (plug a (j + k + 1) (.bound i))
      = some (plug a (j + k) r) := by
  rw [instantiate] at h
  split at h
  · rename_i hlt
    cases h
    rw [plug_bound_lt a (by omega), plug_bound_lt a (by omega), instantiate,
      if_pos hlt]
  · rename_i hlt
    split at h
    · rename_i heq
      subst heq
      cases h
      rw [plug_bound_lt a (by omega), instantiate, if_neg hlt, if_pos rfl,
        plug_lift (Nat.zero_le _)]
    · rename_i hne
      cases h
      rcases Nat.lt_trichotomy i (j + k + 1) with hi | rfl | hi
      · rw [plug_bound_lt a hi, plug_bound_lt a (by omega), instantiate,
          if_neg hlt, if_neg hne]
      · rw [plug_bound_self, Nat.add_sub_cancel, plug_bound_self,
          instantiate_lift_zero apply _ (by omega)]
      · rw [plug_bound_gt a hi, plug_bound_gt a (by omega), instantiate,
          if_neg (by omega), if_neg (by omega)]

/-- Instantiating the variable `j` of a tree commutes with plugging for a
variable further out. -/
theorem Commutes.instantiate {apply : Application} (hcomm : Commutes a apply)
    (hkeeps : KeepsTight apply) {q : Scoped} (hq : q.Tight) {j k : Nat}
    {t r : Scoped} (ht : t.Tight) (h : instantiate apply q j t = some r) :
    Scoped.instantiate apply (plug a k q) j (plug a (j + k + 1) t)
      = some (plug a (j + k) r) := by
  have all {j : Nat} {ts us : List Scoped}
      (ih : ∀ t ∈ ts, ∀ u, Scoped.instantiate apply q j t = some u →
        Scoped.instantiate apply (plug a k q) j (plug a (j + k + 1) t)
          = some (plug a (j + k) u))
      (h : instantiateAll apply q j ts = some us) :
      instantiateAll apply (plug a k q) j (ts.map (plug a (j + k + 1)))
        = some (us.map (plug a (j + k))) :=
    instantiateAll_map_of_forall₂
      (forall₂_imp_of_mem (instantiateAll_eq_some.1 h) ih)
  induction t using Scoped.ind generalizing j r with
  | bound i => exact instantiate_plug_bound h
  | atom b =>
      cases h
      rfl
  | lambda type body ih =>
      rw [Scoped.instantiate] at h
      obtain ⟨body', hbody, rfl⟩ := Option.map_eq_some_iff.1 h
      cases ht with
      | lambda ht =>
          have ih := ih ht hbody
          rw [Nat.add_right_comm j 1 k] at ih
          rw [plug, plug, Scoped.instantiate, ih]
          rfl
  | binder op args ih =>
      rw [Scoped.instantiate] at h
      obtain ⟨args', hargs, rfl⟩ := Option.map_eq_some_iff.1 h
      cases ht with
      | binder ht =>
          have ih := all (fun t hmem u => ih t hmem (ht t hmem)) hargs
          rw [Nat.add_right_comm j 1 k] at ih
          rw [plug, plug, plugAll_eq_map, plugAll_eq_map, Scoped.instantiate, ih]
          rfl
  | app head args ihHead ihArgs =>
      rw [Scoped.instantiate] at h
      obtain ⟨args', hargs, hrest⟩ := Option.bind_eq_some_iff.1 h
      cases ht with
      | app happ hhead hts =>
          have ihArgs := all (fun t hmem u => ihArgs t hmem (hts t hmem)) hargs
          have hnil : args' = [] ↔ args = [] := by
            have hlength := (instantiateAll_eq_some.1 hargs).length_eq
            rw [← List.length_eq_zero_iff, ← hlength, List.length_eq_zero_iff]
          split at hrest
          · -- the variable itself is the head: the chain commutes
            rename_i hbound
            cases eq_bound_of_isBound hbound
            have hargs' : ∀ u ∈ args', u.Tight := by
              intro u hu
              obtain ⟨t, ht, h⟩ :=
                exists_left_of_mem (instantiateAll_eq_some.1 hargs) hu
              exact hkeeps.instantiate hq (hts t ht) h
            have hchain := hcomm.foldlM hkeeps hargs' (hq.lift j 0) hrest (j + k)
            have hne : ¬ (Scoped.bound j).isBound (j + k + 1) = true := by
              rw [isBound_bound_of_ne (by omega)]
              exact Bool.false_ne_true
            rw [plug_app fun h => absurd h hne, plug_bound_lt a (by omega),
              Scoped.instantiate, ihArgs, Option.bind_some, if_pos hbound,
              ← plug_lift (Nat.zero_le _), hchain]
          · rename_i hbound
            obtain ⟨head', hh, rfl⟩ := Option.map_eq_some_iff.1 hrest
            by_cases hempty : head.isBound (j + k + 1) = true ∧ args = []
            · -- the variable that is plugged stands alone
              obtain ⟨houter, rfl⟩ := hempty
              cases eq_bound_of_isBound houter
              cases hnil.2 rfl
              rw [Scoped.instantiate, if_neg (by omega), if_neg (by omega)] at hh
              cases hh
              rw [plug_app_nil, Nat.add_sub_cancel, plug_app_nil,
                instantiate_lift_zero apply _ (by omega)]
            · have hstays : head.isBound (j + k + 1) = true → args ≠ [] :=
                fun houter hargs => hempty ⟨houter, hargs⟩
              have hstays' : head'.isBound (j + k) = true → args' ≠ [] := by
                intro houter hargs'
                have hargs := hnil.1 hargs'
                have hhead' := (head_of_instantiate (happ hargs)
                  (by simpa using hbound) hh).2 (j + k) (by omega)
                rw [hhead'] at houter
                · cases houter
                · by_contra hcontra
                  exact hstays (by simpa using hcontra) hargs
              have hplugged : (plug a (j + k + 1) head).isBound j = false := by
                rw [isBound_plug (by omega)]
                simpa using hbound
              rw [plug_app hstays, plug_app hstays', Scoped.instantiate, ihArgs,
                Option.bind_some, if_neg (by simp [hplugged]), ihHead hhead hh]
              rfl

include ha in
/-- Application unfolded to any depth commutes with plugging. -/
theorem commutes_applyWithin (n : Nat) : Commutes a (applyWithin n) := by
  induction n with
  | zero =>
      intro f q r _ _ h
      cases h
  | succ n ih =>
      intro f q r hf hq h k
      cases hlambda : f.isLambda with
      | false =>
          rw [applyWithin, applyStep_of_isLambda hlambda] at h
          cases h
          rw [applyWithin, applyStep_of_isLambda (isLambda_plug ha hlambda),
            plug_app fun _ => List.cons_ne_nil _ _]
          rfl
      | true =>
          cases f with
          | lambda type body =>
              cases hf with
              | lambda hbody =>
                  have h := ih.instantiate (k := k) (keepsTight_applyWithin n) hq
                    hbody h
                  rw [Nat.zero_add] at h
                  exact h
          | _ => cases hlambda

end

/-- Reduction commutes with plugging in what is no abstraction. -/
theorem Reduces.plug {a f q r : Scoped} (ha : a.isLambda = false)
    (hf : f.Tight) (hq : q.Tight) (h : Reduces f q r) (k : Nat) :
    Reduces (plug a k f) (plug a k q) (plug a k r) := by
  obtain ⟨n, h⟩ := h
  exact ⟨n, commutes_applyWithin ha n f q r hf hq h k⟩

end Scoped

end LogicalForm
