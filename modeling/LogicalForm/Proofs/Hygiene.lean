/-
Which index stands for which variable while a form is reduced. The bound
variables of an argument move past both operands of its application, but
an application inside a body chooses its offset from its own two operands
and knows nothing of the term around it. So an index can come to serve
two variables, in two ways that later applications misread:

- it is both bound and free in an argument, and then the move of the
  argument takes the free variable along;
- it is the parameter of an abstraction and the variable of a binder
  below it, and then substitution replaces the variable of the binder.

`Clear` excludes the two for one application, `ClearRun` for all that are
performed while a form is applied.

# What a clear run preserves

- `mem_freeVars_apply`: no variable becomes free. What is free in the
  result is free in the function or in the argument.
- `lofty_apply`: binders stay above the variables they may capture.
  `Lofty L` says that the lambdas at the spine, and every binder around a
  free variable of index `L` or more, have an index of `L` or more. A
  moved argument is lofty for its offset, the functions called are made
  from it, and their arguments have free variables below the offset only:
  so no call captures anything.

Both go by induction along the calls, with a rule induction over the
substitution inside.
-/
import LogicalForm.Proofs.Renaming

namespace LogicalForm

-- =============================================================== clarity

namespace Term

/-- The term is an abstraction whose body traps the parameter. -/
def trapsParameter : Term → Bool
  | .lambda v _ body => body.traps v
  | _ => false

end Term

namespace Form

/-- No index serves two variables where the application of the first form
to the second would confuse them. -/
structure Clear (p : Form × Form) : Prop where
  apart : ∀ x ∈ p.2.term.binders, x ∉ p.2.term.freeVars
  untrapped : p.1.term.trapsParameter = false

instance : DecidablePred Clear := fun p =>
  decidable_of_iff
    ((∀ x ∈ p.2.term.binders, x ∉ p.2.term.freeVars)
      ∧ p.1.term.trapsParameter = false)
    ⟨fun h => ⟨h.1, h.2⟩, fun h => ⟨h.1, h.2⟩⟩

/-- The body of a function in a clear application does not trap the
parameter. -/
theorem Clear.traps_body {p : Form × Form} (h : Clear p) {v : Var} {type : Ty}
    {body : Term} (hterm : p.1.term = .lambda v type body) :
    body.traps v = false := by
  have huntrapped := h.untrapped
  rwa [hterm] at huntrapped

/-- All applications performed while `f` is applied to `a` are clear. -/
def ClearRun (f a : Form) : Prop := ∀ p, Performs f a p → Clear p

instance (f a : Form) : Decidable (ClearRun f a) :=
  inferInstanceAs (Decidable (∀ p, Performs f a p → Clear p))

theorem ClearRun.here {f a : Form} (h : ClearRun f a) : Clear (f, a) :=
  h _ (.itself f a)

/-- The calls of a clear run are clear runs. -/
theorem ClearRun.call {f a : Form} {p : Form × Form} (h : ClearRun f a)
    (hp : p ∈ calls f a) : ClearRun p.1 p.2 :=
  fun q hq => h q (.nested hp hq)

/-- A clear argument has the same free variables after its move. -/
theorem mem_freeVars_moved_iff {f a arg : Form}
    (harg : (moved f a).result = .ok arg) (hclear : Clear (f, a)) {x : Var} :
    x ∈ arg.term.freeVars ↔ x ∈ a.term.freeVars := by
  have hstay : ∀ y ∈ a.term.freeVars, relocate f a y = y :=
    fun y hy => relocate_of_not_mem fun hbound => hclear.apart y hbound hy
  rw [mem_freeVars_moved harg]
  constructor
  · intro h
    obtain ⟨y, hy, rfl⟩ := h
    rwa [hstay y hy]
  · intro hx
    exact ⟨x, hx, (hstay x hx).symm⟩

-- ======================================================== free variables

/-- Applying the form makes no variable free. -/
def KeepsScope (p : Form × Form) : Prop :=
  ∀ r, (apply p.1 p.2).result = .ok r → ∀ y ∈ r.term.freeVars,
    y ∈ p.1.term.freeVars ∨ y ∈ p.2.term.freeVars

/-- A run over arguments has only the free variables of the function and of
the arguments, if its calls keep their scopes. -/
theorem mem_freeVars_applyAll_of_keepsScope {c : Context} {f g : Form}
    {ts : List Term} (hcalls : ∀ p ∈ callsAlong c f ts, KeepsScope p)
    (h : (applyAll apply c f ts).result = .ok g) {y : Var}
    (hy : y ∈ g.term.freeVars) :
    y ∈ f.term.freeVars ∨ ∃ t ∈ ts, y ∈ t.freeVars := by
  refine applyAll_keeps (R := fun g => ∀ y ∈ g.term.freeVars,
    y ∈ f.term.freeVars ∨ ∃ t ∈ ts, y ∈ t.freeVars) ?step
    (fun y hy => .inl hy) h y hy
  intro p hp s hR hs y hy
  rcases hcalls p hp s hs y hy with hy | hy
  · exact hR y hy
  · obtain ⟨t, ht, hterm⟩ := exists_of_mem_callsAlong hp
    rw [(result_ofTerm_eq_ok hterm).1] at hy
    exact .inr ⟨t, ht, hy⟩

/-- Where nothing is trapped, the free variables of what substitution
gives come from the term, the replaced one excepted, or from the form
that replaces it. -/
theorem mem_freeVars_of_substituted {H : Form × Form → Prop} {c : Context}
    {v : Var} {arg : Form} (hH : ∀ p, H p → KeepsScope p) {t u : Term}
    (h : Substituted H c v arg t u) (htraps : t.traps v = false) {y : Var}
    (hy : y ∈ u.freeVars) :
    (y ∈ t.freeVars ∧ y ≠ v) ∨ (v ∈ t.freeVars ∧ y ∈ arg.term.freeVars) := by
  revert htraps y
  refine substitute_induct (P := fun t u => t.traps v = false →
    ∀ {y : Var}, y ∈ u.freeVars → (y ∈ t.freeVars ∧ y ≠ v)
      ∨ (v ∈ t.freeVars ∧ y ∈ arg.term.freeVars))
    ?var ?atom ?shadowed ?lambda ?binder ?curried ?headed h
  case var =>
    intro _ y hy
    exact .inr ⟨Term.mem_freeVars_atom.2 rfl, hy⟩
  case atom =>
    intro a ha _ y hy
    refine .inl ⟨hy, ?_⟩
    intro heq
    subst heq
    exact ha (Term.mem_freeVars_atom.1 hy)
  case shadowed =>
    intro type body _ y hy
    exact .inl ⟨hy, (Term.mem_freeVars_lambda.1 hy).2⟩
  case lambda =>
    intro w type body body' hw _ ih htraps y hy
    have hbody := Term.traps_lambda_eq_false.1 htraps hw
    obtain ⟨hy, hyw⟩ := Term.mem_freeVars_lambda.1 hy
    rcases ih hbody hy with ⟨hy, hyv⟩ | ⟨hv, hy⟩
    · exact .inl ⟨Term.mem_freeVars_lambda.2 ⟨hy, hyw⟩, hyv⟩
    · exact .inr ⟨Term.mem_freeVars_lambda.2 ⟨hv, hw.symm⟩, hy⟩
  case binder =>
    intro op w args args' ih htraps y hy
    obtain ⟨hnot, hargs⟩ := Term.traps_binder_eq_false.1 htraps
    obtain ⟨⟨u, hu, hy⟩, hyw⟩ := Term.mem_freeVars_binder.1 hy
    obtain ⟨t, ht, -, hP⟩ := exists_left_of_mem ih hu
    rcases hP (hargs t ht) hy with ⟨hy, hyv⟩ | ⟨hv, hy⟩
    · exact .inl ⟨Term.mem_freeVars_binder.2 ⟨⟨t, ht, hy⟩, hyw⟩, hyv⟩
    · have hw : v ≠ w := fun e => hnot e.symm t ht hv
      exact .inr ⟨Term.mem_freeVars_binder.2 ⟨⟨t, ht, hv⟩, hw⟩, hy⟩
  case curried =>
    intro args args' g ih hcalls hg htraps y hy
    have hargs := (Term.traps_app_eq_false.1 htraps).2
    have hhead : v ∈ (Term.app (.ofVar v) args).freeVars :=
      Term.mem_freeVars_app.2 (.inl (Term.mem_freeVars_atom.2 rfl))
    rcases mem_freeVars_applyAll_of_keepsScope
      (fun p hp => hH p (hcalls p hp)) hg hy with hy | ⟨u, hu, hy⟩
    · exact .inr ⟨hhead, hy⟩
    · obtain ⟨t, ht, -, hP⟩ := exists_left_of_mem ih hu
      rcases hP (hargs t ht) hy with ⟨hy, hyv⟩ | ⟨-, hy⟩
      · exact .inl ⟨Term.mem_freeVars_app.2 (.inr ⟨t, ht, hy⟩), hyv⟩
      · exact .inr ⟨hhead, hy⟩
  case headed =>
    intro head head' args args' _ _ ihHead ihArgs htraps y hy
    obtain ⟨hhead, hargs⟩ := Term.traps_app_eq_false.1 htraps
    rcases Term.mem_freeVars_app.1 hy with hy | ⟨u, hu, hy⟩
    · rcases ihHead hhead hy with ⟨hy, hyv⟩ | ⟨hv, hy⟩
      · exact .inl ⟨Term.mem_freeVars_app.2 (.inl hy), hyv⟩
      · exact .inr ⟨Term.mem_freeVars_app.2 (.inl hv), hy⟩
    · obtain ⟨t, ht, -, hP⟩ := exists_left_of_mem ihArgs hu
      rcases hP (hargs t ht) hy with ⟨hy, hyv⟩ | ⟨hv, hy⟩
      · exact .inl ⟨Term.mem_freeVars_app.2 (.inr ⟨t, ht, hy⟩), hyv⟩
      · exact .inr ⟨Term.mem_freeVars_app.2 (.inr ⟨t, ht, hv⟩), hy⟩

/-- A clear run makes no variable free. -/
theorem keepsScope_of_clearRun {f a : Form} (hclear : ClearRun f a) :
    KeepsScope (f, a) := by
  refine apply_induct (P := fun f a => ClearRun f a → KeepsScope (f, a))
    (fun f a ih hclear => ?_) f a hclear
  show ∀ r, (apply f a).result = .ok r → ∀ y ∈ r.term.freeVars,
    y ∈ f.term.freeVars ∨ y ∈ a.term.freeVars
  intro r hr y hy
  cases hterm : f.term with
  | lambda v type body =>
      obtain ⟨arg, harg, htype, hsub, -⟩ := apply_lambda_eq_ok hterm hr
      have hcalls : ∀ p ∈ callsWithin f.context v arg body, KeepsScope p := by
        rw [← calls_lambda hterm harg htype]
        exact fun p hp => ih p hp (hclear.call hp)
      have htraps := hclear.here.traps_body hterm
      rcases mem_freeVars_of_substituted (fun _ h => h) ⟨hsub, hcalls⟩ htraps hy
        with ⟨hy, hyv⟩ | ⟨-, hy⟩
      · exact .inl (Term.mem_freeVars_lambda.2 ⟨hy, hyv⟩)
      · exact .inr ((mem_freeVars_moved_iff harg hclear.here).1 hy)
  | _ =>
      have hlam : f.term.isLambda = false := by rw [hterm]; rfl
      obtain ⟨arg, harg, hrterm, -⟩ := apply_wrap_eq_ok hlam hr
      rw [hrterm] at hy
      rcases Term.mem_freeVars_app.1 hy with hy | ⟨u, hu, hy⟩
      · rw [← hterm]
        exact .inl hy
      · cases List.mem_singleton.1 hu
        exact .inr ((mem_freeVars_moved_iff harg hclear.here).1 hy)

/-- What is free after a clear run was free before. -/
theorem mem_freeVars_apply {f a r : Form} (hclear : ClearRun f a)
    (hr : (apply f a).result = .ok r) {y : Var} (hy : y ∈ r.term.freeVars) :
    y ∈ f.term.freeVars ∨ y ∈ a.term.freeVars :=
  keepsScope_of_clearRun hclear r hr y hy

end Form

-- ========================================================= high binders

namespace Term

/-- The lambdas at the spine have indices of `L` or more, and so has every
binder around a free variable of index `L` or more. -/
def Lofty (L : Nat) : Term → Prop
  | .lambda w _ body => L ≤ w.index ∧ body.Lofty L
  | t => ∀ y, L ≤ y.index → ∀ x ∈ t.covers y, L ≤ x.index

/-- No binder around a high variable is low, the spine included. -/
theorem Lofty.covers {L : Nat} {t : Term} (ht : t.Lofty L) {x y : Var}
    (hy : L ≤ y.index) (hx : x ∈ t.covers y) : L ≤ x.index := by
  induction t with
  | lambda w type body ih =>
      obtain ⟨-, rfl | hx⟩ := mem_covers_lambda.1 hx
      · exact ht.1
      · exact ih ht.2 hx
  | atom a => exact ht y hy x hx
  | binder op w args _ => exact ht y hy x hx
  | app head args _ _ => exact ht y hy x hx

/-- A term all of whose binders are high is lofty. -/
theorem lofty_of_binders {L : Nat} {t : Term}
    (h : ∀ x ∈ t.binders, L ≤ x.index) : t.Lofty L := by
  induction t with
  | lambda w type body ih =>
      exact ⟨h w (mem_binders_lambda.2 (.inl rfl)),
        ih fun x hx => h x (mem_binders_lambda.2 (.inr hx))⟩
  | atom a => exact fun y _ x hx => h x (mem_binders_of_mem_covers hx)
  | binder op w args _ =>
      exact fun y _ x hx => h x (mem_binders_of_mem_covers hx)
  | app head args _ _ =>
      exact fun y _ x hx => h x (mem_binders_of_mem_covers hx)

end Term

namespace Form

/-- Applying the form keeps it lofty. -/
def KeepsLofty (L : Nat) (p : Form × Form) : Prop :=
  p.1.term.Lofty L → ∀ r, (apply p.1 p.2).result = .ok r → r.term.Lofty L

/-- Substitution of a form with high binders only, for a variable below
high binders only, keeps the binders around high variables high, and
keeps a lofty term lofty. -/
theorem lofty_of_substituted {H : Form × Form → Prop} {L : Nat} {c : Context}
    {v : Var} {arg : Form} (hscope : ∀ p, H p → KeepsScope p)
    (hlofty : ∀ p, H p → KeepsLofty L p)
    (harg : ∀ x ∈ arg.term.binders, L ≤ x.index) {t u : Term}
    (h : Substituted H c v arg t u) (htraps : t.traps v = false)
    (hcovers : ∀ x ∈ t.covers v, L ≤ x.index) :
    (∀ y, L ≤ y.index → (∀ x ∈ t.covers y, L ≤ x.index) →
        ∀ x ∈ u.covers y, L ≤ x.index)
      ∧ (t.Lofty L → u.Lofty L) := by
  revert htraps hcovers
  refine substitute_induct (P := fun t u => t.traps v = false →
    (∀ x ∈ t.covers v, L ≤ x.index) →
    (∀ y, L ≤ y.index → (∀ x ∈ t.covers y, L ≤ x.index) →
        ∀ x ∈ u.covers y, L ≤ x.index)
      ∧ (t.Lofty L → u.Lofty L))
    ?var ?atom ?shadowed ?lambda ?binder ?curried ?headed h
  case var =>
    intro _ _
    exact ⟨fun y _ _ x hx => harg x (Term.mem_binders_of_mem_covers hx),
      fun _ => Term.lofty_of_binders harg⟩
  case atom =>
    intro a _ _ _
    exact ⟨fun _ _ h => h, id⟩
  case shadowed =>
    intro type body _ _
    exact ⟨fun _ _ h => h, id⟩
  case lambda =>
    intro w type body body' hw hsub ih htraps hcovers
    have hbody := Term.traps_lambda_eq_false.1 htraps hw
    -- a binder inside covers `v` in the body only if the body has `v` free,
    -- and then the lambda itself covers it too
    have hcover {x : Var} (hx : x = w ∨ x ∈ body.covers v)
        (hv : v ∈ body.freeVars) : L ≤ x.index :=
      hcovers x (Term.mem_covers_lambda.2 ⟨⟨hw, hv⟩, hx⟩)
    have ih := ih hbody fun x hx =>
      hcover (.inr hx) (Term.mem_freeVars_of_mem_covers hx)
    refine ⟨fun y hy hbinders x hx => ?_, fun ht => ⟨ht.1, ih.2 ht.2⟩⟩
    obtain ⟨⟨hwy, hfree⟩, hx⟩ := Term.mem_covers_lambda.1 hx
    have hinner : ∀ z ∈ body.covers y, L ≤ z.index := fun z hz =>
      hbinders z (Term.mem_covers_lambda.2
        ⟨⟨hwy, Term.mem_freeVars_of_mem_covers hz⟩, .inr hz⟩)
    rcases hx with rfl | hx
    · rcases mem_freeVars_of_substituted hscope hsub hbody hfree with
        ⟨hfree, -⟩ | ⟨hv, -⟩
      · exact hbinders x (Term.mem_covers_lambda.2 ⟨⟨hwy, hfree⟩, .inl rfl⟩)
      · exact hcover (.inl rfl) hv
    · exact ih.1 y hy hinner x hx
  case binder =>
    intro op w args args' ih htraps hcovers
    obtain ⟨hnot, hargs⟩ := Term.traps_binder_eq_false.1 htraps
    have hcover {t : Term} (ht : t ∈ args) (hv : v ∈ t.freeVars) {x : Var}
        (hx : x = w ∨ ∃ t ∈ args, x ∈ t.covers v) : L ≤ x.index :=
      hcovers x (Term.mem_covers_binder.2
        ⟨⟨fun e => hnot e t ht hv, t, ht, hv⟩, hx⟩)
    have hbinder : ∀ y, L ≤ y.index →
        (∀ x ∈ (Term.binder op w args).covers y, L ≤ x.index) →
        ∀ x ∈ (Term.binder op w args').covers y, L ≤ x.index := by
      intro y hy hbinders x hx
      obtain ⟨⟨hwy, u, hu, hfree⟩, hx⟩ := Term.mem_covers_binder.1 hx
      rcases hx with rfl | ⟨u, hu, hx⟩
      · obtain ⟨t, ht, hsub, -⟩ := exists_left_of_mem ih hu
        rcases mem_freeVars_of_substituted hscope hsub (hargs t ht) hfree with
          ⟨hfree, -⟩ | ⟨hv, -⟩
        · exact hbinders x
            (Term.mem_covers_binder.2 ⟨⟨hwy, t, ht, hfree⟩, .inl rfl⟩)
        · exact hcover ht hv (.inl rfl)
      · obtain ⟨t, ht, -, hP⟩ := exists_left_of_mem ih hu
        refine (hP (hargs t ht) fun z hz => ?_).1 y hy (fun z hz => ?_) x hx
        · exact hcover ht (Term.mem_freeVars_of_mem_covers hz)
            (.inr ⟨t, ht, hz⟩)
        · exact hbinders z (Term.mem_covers_binder.2
            ⟨⟨hwy, t, ht, Term.mem_freeVars_of_mem_covers hz⟩,
              .inr ⟨t, ht, hz⟩⟩)
    exact ⟨hbinder, fun ht y hy => hbinder y hy (ht y hy)⟩
  case curried =>
    intro args args' g _ hcalls hg _ _
    have hgl : g.term.Lofty L :=
      applyAll_keeps (R := fun g => g.term.Lofty L)
        (fun p hp s hp' hs => hlofty p (hcalls p hp) hp' s hs)
        (Term.lofty_of_binders harg) hg
    exact ⟨fun y hy _ x hx => hgl.covers hy hx, fun _ => hgl⟩
  case headed =>
    intro head head' args args' _ _ ihHead ihArgs htraps hcovers
    obtain ⟨hhead, hargs⟩ := Term.traps_app_eq_false.1 htraps
    have happ : ∀ y, L ≤ y.index →
        (∀ x ∈ (Term.app head args).covers y, L ≤ x.index) →
        ∀ x ∈ (Term.app head' args').covers y, L ≤ x.index := by
      intro y hy hbinders x hx
      rcases Term.mem_covers_app.1 hx with hx | ⟨u, hu, hx⟩
      · exact (ihHead hhead fun z hz =>
          hcovers z (Term.mem_covers_app.2 (.inl hz))).1 y hy
          (fun z hz => hbinders z (Term.mem_covers_app.2 (.inl hz))) x hx
      · obtain ⟨t, ht, -, hP⟩ := exists_left_of_mem ihArgs hu
        exact (hP (hargs t ht) fun z hz =>
          hcovers z (Term.mem_covers_app.2 (.inr ⟨t, ht, hz⟩))).1 y hy
          (fun z hz => hbinders z (Term.mem_covers_app.2 (.inr ⟨t, ht, hz⟩)))
          x hx
    exact ⟨happ, fun ht y hy => happ y hy (ht y hy)⟩

/-- A clear run keeps a lofty form lofty. -/
theorem lofty_apply {L : Nat} {f a r : Form} (hclear : ClearRun f a)
    (hf : f.term.Lofty L) (hr : (apply f a).result = .ok r) :
    r.term.Lofty L := by
  refine apply_induct (P := fun f a => ClearRun f a → KeepsLofty L (f, a))
    (fun f a ih hclear => ?_) f a hclear hf r hr
  show f.term.Lofty L → ∀ r, (apply f a).result = .ok r → r.term.Lofty L
  intro hf r hr
  cases hterm : f.term with
  | lambda v type body =>
      obtain ⟨arg, harg, htype, hsub, -⟩ := apply_lambda_eq_ok hterm hr
      rw [hterm] at hf
      have hcalls : ∀ p ∈ callsWithin f.context v arg body,
          KeepsScope p ∧ KeepsLofty L p := by
        rw [← calls_lambda hterm harg htype]
        intro p hp
        exact ⟨keepsScope_of_clearRun (hclear.call hp), ih p hp (hclear.call hp)⟩
      have htraps := hclear.here.traps_body hterm
      have hoffset : v.index < offset f a := (index_lt_offset_of_lambda hterm).1
      have hbinders : ∀ x ∈ arg.term.binders, L ≤ x.index := by
        intro x hx
        have hle := le_index_of_mem_binders_moved harg hx
        have hL := hf.1
        omega
      exact (lofty_of_substituted (fun _ h => h.1) (fun _ h => h.2) hbinders
        ⟨hsub, hcalls⟩ htraps fun x hx => hf.2.covers hf.1 hx).2 hf.2
  | _ =>
      have hlam : f.term.isLambda = false := by rw [hterm]; rfl
      obtain ⟨arg, harg, hrterm, -⟩ := apply_wrap_eq_ok hlam hr
      rw [hrterm]
      intro y hy x hx
      rcases Term.mem_covers_app.1 hx with hx | ⟨u, hu, hx⟩
      · exact hf.covers hy hx
      · cases List.mem_singleton.1 hu
        -- the free variable is one of the argument, so the offset passes it
        have hfree := Term.mem_freeVars_of_mem_covers hx
        rw [mem_freeVars_moved_iff harg hclear.here] at hfree
        have hlt := index_lt_offset_right (f := f)
          (Term.mem_vars_of_mem_freeVars hfree)
        have hle := le_index_of_mem_binders_moved harg
          (Term.mem_binders_of_mem_covers hx)
        omega

end Form

end LogicalForm
