import Formulary.Proofs.Instances
import Formulary.Proofs.Records

/-! # Instances of matched templates

Bindings that give every pattern of a template what it was matched with, and every binder its
names, make an instance that reads as the expression that was matched. A reading is a fold, so only
what it tells apart has to be the same. What is folded into type statements isn't matched and has to
agree on its own. -/

namespace Formulary

open Formulary.Expr (Algebra Each Facing boundRecords)

variable {α : Type}

/-- The bindings have what the records say, as far as the reading tells. -/
structure Bindings.Recalls (b : Bindings) (a : Algebra α) (records : List Record) : Prop where
  values : ∀ pattern value path scopes disambiguator,
    .binding pattern value path scopes ∈ records → ∃ new,
      b.applyWalk.var scopes.length pattern disambiguator = .ok new ∧
        Expr.fold a new = Expr.fold a value
  names : ∀ d names names' path parts, names.length = names'.length →
    (∀ r ∈ boundRecords names names' path, r ∈ records) →
      a.node (.defined d (names.map b.applyWalk.boundName)) parts = a.node (.defined d names') parts

theorem Bindings.Recalls.mono {b : Bindings} {a : Algebra α} {records some : List Record}
    (h : b.Recalls a records) (hsub : ∀ r ∈ some, r ∈ records) : b.Recalls a some where
  values _ _ _ _ _ hr := h.values _ _ _ _ _ (hsub _ hr)
  names _ _ _ _ _ hlength hr := h.names _ _ _ _ _ hlength fun r hmem => hsub r (hr r hmem)

/-- Whatever the term and the components are, what is folded into the instance of the one statement
reads as what is folded into the other. -/
def Typing.ReadsAs (b : Bindings) (a : Algebra α) (depth : Nat) (t t' : Typing Expr) : Prop :=
  ∃ new : List (Attachment Expr),
    t.attachments.mapM (Attachment.mapM fun own => own.walk b.applyWalk depth) = .ok new ∧
      ∀ term components,
        a.typing ⟨t.type, term, t.qualifier, components, new.map (.map (Expr.fold a)),
            t.conjunction⟩ =
          a.typing ⟨t.type, term, t'.qualifier, components,
            t'.attachments.map (.map (Expr.fold a)), t'.conjunction⟩

namespace Expr

variable {b : Bindings} {a : Algebra α} {depth : Nat} {t e : Expr} {path : Path}
  {scopes inner : Scopes} {records : List Record}

/-- The instance of a template reads as the expression. -/
def Rebuilds (b : Bindings) (a : Algebra α) (depth : Nat) (t e : Expr) : Prop :=
  ∃ new, t.walk b.applyWalk depth = .ok new ∧ fold a new = fold a e

/-- What is folded into each statement of the template reads as what is folded into the one that it
is matched with. -/
def ReadsAs (b : Bindings) (a : Algebra α) (depth : Nat) (t e : Expr) : Prop :=
  ∀ scopes s s', Facing parts t e scopes (.typing s) (.typing s') →
    s.ReadsAs b a (depth + scopes.length) s'

theorem ReadsAs.child (h : ReadsAs b a depth t e) {index : Nat} {x y : Expr}
    (hx : t.parts[index]? = some x) (hy : e.parts[index]? = some y) :
    ReadsAs b a (t.depthInside depth) x y := by
  intro scopes s s' hfacing
  rw [← add_length_scope_append]
  exact h _ s s' (.child index hx hy hfacing)

/-- Bindings that recall the records of a match rebuild what was matched. -/
def Rebuilt (b : Bindings) (a : Algebra α) (t e : Expr) (scopes : Scopes)
    (records : List Record) : Prop :=
  b.Recalls a records → ReadsAs b a scopes.length t e → Rebuilds b a scopes.length t e

/-- The parts of a node are rebuilt one by one. -/
theorem exists_parts {ts : List Expr} {xs : List (Expr × Path)}
    (h : Each (fun t x => Rebuilt b a t x.1 inner) ts xs records) (hb : b.Recalls a records)
    (hreads : ∀ (index : Nat) t x, ts[index]? = some t → xs[index]? = some x →
      ReadsAs b a inner.length t x.1) :
    ∃ news, ts.mapM (walk b.applyWalk · inner.length) = .ok news ∧
      news.map (fold a) = (xs.map Prod.fst).map (fold a) := by
  induction h with
  | nil => exact ⟨[], rfl, rfl⟩
  | @cons t x first rest ts xs ht _ ih =>
    obtain ⟨new, hnew, hsame⟩ := ht (hb.mono fun r hr => List.mem_append_left _ hr)
      (hreads 0 t x rfl rfl)
    obtain ⟨news, hnews, hsames⟩ := ih (hb.mono fun r hr => List.mem_append_right _ hr)
      fun index t x ht hx => hreads (index + 1) t x ht hx
    refine ⟨new :: news, ?_, by simp [hsame, hsames]⟩
    rw [List.mapM_cons, hnew, hnews]
    rfl

/-- The same for the parts of a node, whose match is one level deeper in both trees. -/
theorem exists_parts_of_each
    (h : Each (fun t x => Rebuilt b a t x.1 inner) t.parts (e.targets path) records)
    (hb : b.Recalls a records) (hinner : inner.length = t.depthInside scopes.length)
    (hreads : ReadsAs b a scopes.length t e) :
    ∃ news, t.parts.mapM (walk b.applyWalk · (t.depthInside scopes.length)) = .ok news ∧
      news.map (fold a) = e.parts.map (fold a) := by
  rw [← hinner, ← map_fst_targets e path]
  apply exists_parts h hb
  intro index x y hx hy
  rw [hinner]
  exact hreads.child hx (getElem?_parts hy)

theorem rebuilt_node {d : ExpressionDefinition} {names names' : List String}
    {parts parts' : List Expr} (hnames : names.length = names'.length)
    (h : Each (fun t x => Rebuilt b a t x.1 ((Head.defined d names').enter scopes)) parts
      ((Expr.node (.defined d names') parts').targets path) records) :
    Rebuilt b a (.node (.defined d names) parts) (.node (.defined d names') parts') scopes
      (records ++ boundRecords names names' path) := by
  intro hb hreads
  obtain ⟨news, hnews, hsame⟩ := exists_parts_of_each h
    (hb.mono fun r hr => List.mem_append_left _ hr) (Head.length_enter_defined hnames scopes) hreads
  refine ⟨.node (.defined d (names.map b.applyWalk.boundName)) news, ?_, ?_⟩
  · rw [walk_node, List.mapM_map]
    exact congrArg (Functor.map _) hnews
  · change news.map (fold a) = parts'.map (fold a) at hsame
    rw [fold_node, fold_node, hsame]
    exact hb.names d names names' path _ hnames fun r hr => List.mem_append_right _ hr

/-- Of a statement the term and the components are matched; the rest is what is folded. -/
theorem rebuilt_typing {s s' : Typing Expr} (htype : s.type = s'.type)
    (h : Each (fun t x => Rebuilt b a t x.1 scopes) (s.term :: s.components)
      ((Expr.typing s').targets path) records) :
    Rebuilt b a (.typing s) (.typing s') scopes records := by
  intro hb hreads
  obtain ⟨news, hnews, hsame⟩ := exists_parts_of_each h hb rfl hreads
  obtain ⟨attachments, hattachments, hfolded⟩ := hreads [] s s' (.root _ _)
  rw [parts, List.mapM_cons] at hnews
  obtain ⟨term, hterm, hnews⟩ := (Outcome.except EditError).bind hnews
  obtain ⟨components, hcomponents, hnews⟩ := (Outcome.except EditError).bind hnews
  obtain rfl := Except.ok.inj hnews
  refine ⟨.typing ⟨s.type, term, s.qualifier, components, attachments, s.conjunction⟩, ?_, ?_⟩
  · have hstatement : s.mapM (walk b.applyWalk · scopes.length) = .ok _ :=
      Typing.mapM_eq_pure hterm hcomponents hattachments
    rw [walk_typing, Typing.mapM_map, hstatement]
    rfl
  · change (term :: components).map (fold a) = (s'.term :: s'.components).map (fold a) at hsame
    simp only [List.map_cons, List.cons.injEq] at hsame
    rw [fold_typing, fold_typing, Typing.map, hfolded, hsame.1, hsame.2, htype]
    rfl

theorem rebuilt_of_matchAt (h : t.matchAt e path scopes = some records) :
    Rebuilt b a t e scopes records := by
  apply matchAt_induct (motive := fun t e _ scopes records => Rebuilt b a t e scopes records)
    ?_ ?_ ?_ ?_ h
  · intro name disambiguator e path scopes hb _
    obtain ⟨new, hnew, hsame⟩ :=
      hb.values name e path scopes disambiguator (List.mem_singleton.2 rfl)
    exact ⟨new, hnew, hsame⟩
  · exact fun level index path scopes _ _ => ⟨.param level index, rfl, rfl⟩
  · exact fun _ _ _ _ _ _ _ _ hnames heach => rebuilt_node hnames heach
  · exact fun _ _ _ _ _ htype heach => rebuilt_typing htype heach

end Expr

end Formulary
