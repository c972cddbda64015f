import Formulary.Proofs.Legible
import Mathlib.Data.List.Induction

/-! # What a fold keeps

A statement absorbs an explicit qualifier or an attachment. If both are legible, the statement that
comes out is legible, and its conjuncts are the old ones with one more behind them. The terms and
components of that conjunct are the statement's own, which have the texts of those that the fold
drops. -/

namespace Formulary

namespace Typing

variable {α : Type} {v : Vocabulary} {c : ExpressionDefinition}

/-- The statement with an explicit qualifier, which brings the components. -/
def qualified (t : Typing α) (c : ExpressionDefinition) (d : QualifierDefinition)
    (components : List α) : Typing α :=
  { t with qualifier := some d, components := components, conjunction := some c }

def attached (t : Typing α) (c : ExpressionDefinition) (a : Attachment α) : Typing α :=
  { t with attachments := t.attachments ++ [a], conjunction := some c }

theorem sides_attached (t : Typing α) (a : Attachment α) :
    (t.attached c a).sides = t.sides ++ [t.side a] := by
  have hside : (t.attached c a).side = t.side := by
    funext b
    rw [side_eq, side_eq]
    rfl
  have hqualifier : (t.attached c a).qualifier = t.qualifier := rfl
  have hattachments : (t.attached c a).attachments = t.attachments ++ [a] := rfl
  rw [sides, sides, hside, hqualifier, hattachments, List.map_append, List.append_assoc]
  rfl

theorem sides_qualified {t : Typing α} (h : t.attachments = []) (d : QualifierDefinition)
    (components : List α) :
    (t.qualified c d components).sides = [(.qualified d t.type, t.term :: components)] := by
  simp [sides, qualified, h]

theorem isFolded_attached (t : Typing α) (a : Attachment α) :
    (t.attached c a).isFolded = true := by
  simp [isFolded, attached]

theorem isFolded_qualified (t : Typing α) (d : QualifierDefinition) (components : List α) :
    (t.qualified c d components).isFolded = true := by
  simp [isFolded, qualified]

theorem Legible.qualified {t : Typing α} (ht : t.Legible v) (hc : v.Conjoins c)
    {d : QualifierDefinition} (hd : v.Opens (.qualified d t.type)) {components : List α}
    (hcomponents : components.length = d.componentNames.length)
    (hdefault : t.type.defaultQualifier = none) (hattachments : t.attachments = []) :
    (t.qualified c d components).Legible v where
  type := ht.type
  base := by simp [baseComponents, Typing.qualified, TypeDefinition.defaultArity, hdefault]
  sides := by
    rw [sides_qualified hattachments]
    simp only [List.mem_singleton, forall_eq]
    exact ⟨hd, by rw [List.length_cons, hcomponents, Head.partCount, Nat.add_comm]⟩
  qualifier := fun _ => hdefault
  required := by simp [Typing.qualified, hattachments]
  conjunction := fun _ => ⟨c, rfl, hc⟩
  plain := by simp [isFolded_qualified]

theorem Legible.attached {t : Typing α} (ht : t.Legible v) (hc : v.Conjoins c) {a : Attachment α}
    (ha : v.Opens (a.head t.type))
    (hlength : (if t.usesQualifier a then t.components else []).length =
      t.type.qualifierArity a.requiredQualifier)
    (hrequired : ∀ q ∈ a.requiredQualifier, t.type.defaultQualifier = none →
      t.qualifier.map (·.symbol) = some q) :
    (t.attached c a).Legible v where
  type := ht.type
  base := ht.base
  sides := by
    intro s hs
    rw [sides_attached, List.mem_append, List.mem_singleton] at hs
    rcases hs with hs | rfl
    · exact ht.sides s hs
    · rw [side_eq]
      refine ⟨ha, ?_⟩
      rw [Attachment.partCount_head, List.length_append, List.length_cons, hlength]
      omega
  qualifier := ht.qualifier
  required := by
    intro b hb
    rcases List.mem_append.1 hb with hb | hb
    · exact ht.required b hb
    · exact List.mem_singleton.1 hb ▸ hrequired
  conjunction := fun _ => ⟨c, rfl, hc⟩
  plain := by simp [isFolded_attached]

theorem extend?_eq_some {t t' : Typing Expr} {e : Expr} (h : t.extend? e = some t') :
    (∃ d parent term components, e = .node (.qualified d parent) (term :: components) ∧
      t.acceptsQualifier parent term = true ∧
      t' = { t with qualifier := some d, components := components }) ∨
    (∃ (a : Attachment Expr) (parent : TypeDefinition) (term : Expr) (components : List Expr),
      e = .node (a.head parent) (a.own?.toList ++ term :: components) ∧
      t.acceptsAttachment parent term a.requiredQualifier components = true ∧
      t' = { t with attachments := t.attachments ++ [a] }) := by
  unfold extend? at h
  split at h
  · next d parent term components =>
    split at h
    · next haccepts =>
      exact .inl ⟨d, parent, term, components, rfl, haccepts, by simpa using h.symm⟩
    · cases h
  · next d parent term components =>
    split at h
    · next haccepts =>
      exact .inr ⟨.property d, parent, term, components, rfl, haccepts, by simpa using h.symm⟩
    · cases h
  · next d parent own term components =>
    split at h
    · next haccepts =>
      exact .inr ⟨.relatedObject d own, parent, term, components, rfl, haccepts,
        by simpa using h.symm⟩
    · cases h
  · cases h

/-- What the fold compares: either nothing uses a qualifier, or the texts of its components agree
and it is the statement's own one. -/
theorem qualifierMatches_iff {t : Typing Expr} {required : Option String}
    {components : List Expr} : t.qualifierMatches required components = true ↔
      (t.type.defaultQualifier = none ∧ required = none) ∨
        ((required = t.qualifier.map (·.symbol) ∨ t.type.defaultQualifier.isSome = true) ∧
          components.map Expr.text = t.components.map Expr.text) := by
  rw [qualifierMatches]
  by_cases hnone : t.type.defaultQualifier = none ∧ required = none
  · simp [hnone]
  · rw [if_neg (by simpa using hnone)]
    simp [hnone]

theorem qualifierMatches_eq_true {t : Typing Expr} {required : Option String}
    {components : List Expr} (h : t.qualifierMatches required components = true) :
    (t.type.defaultQualifier = none ∧ required = none) ∨
    ((t.type.defaultQualifier = none → required = t.qualifier.map (·.symbol)) ∧
      components.map Expr.text = t.components.map Expr.text) := by
  refine (qualifierMatches_iff.1 h).imp_right ?_
  rintro ⟨hrequired, htexts⟩
  exact ⟨fun hdefault => hrequired.resolve_right (by simp [hdefault]), htexts⟩

theorem qualifier_of_qualifierMatches {t : Typing Expr} {required : Option String}
    {components : List Expr} (h : t.qualifierMatches required components = true) :
    ∀ q ∈ required, t.type.defaultQualifier = none → t.qualifier.map (·.symbol) = some q := by
  intro q hq hdefault
  rcases qualifierMatches_eq_true h with ⟨-, hrequired⟩ | ⟨hrequired, -⟩
  · rw [hrequired] at hq
    cases hq
  · rw [← hrequired hdefault]
    exact hq

theorem texts_of_qualifierMatches {t : Typing Expr} {a : Attachment Expr} {components : List Expr}
    (hlength : components.length = t.type.qualifierArity a.requiredQualifier)
    (h : t.qualifierMatches a.requiredQualifier components = true) :
    components.map Expr.text =
      (if t.usesQualifier a then t.components else []).map Expr.text := by
  by_cases huses : t.usesQualifier a = true
  · rw [if_pos huses]
    rcases qualifierMatches_eq_true h with ⟨hdefault, hrequired⟩ | ⟨-, htexts⟩
    · simp [usesQualifier, hdefault, hrequired] at huses
    · exact htexts
  · have hnone : a.requiredQualifier = none ∧ t.type.defaultQualifier = none := by
      simpa [usesQualifier] using huses
    have hnil : components = [] := by
      rw [← List.length_eq_zero_iff, hlength, hnone.1]
      simp [TypeDefinition.qualifierArity, TypeDefinition.defaultArity, hnone.2]
    rw [if_neg huses, hnil]

/-- The statement `t'` has the conjuncts of `t` and one more behind them. -/
structure Extends (c : ExpressionDefinition) (t : Typing α) (side : Head × List α)
    (t' : Typing α) : Prop where
  type : t'.type = t.type
  term : t'.term = t.term
  base : t'.baseComponents = t.baseComponents
  sides : t'.sides = t.sides ++ [side]
  conjunction : t'.conjunction = some c
  previous : t.isFolded = true → t.conjunction = some c

theorem Extends.unfoldWith {β : Type} {t t' : Typing α} {s : Head × List α}
    (h : Extends c t s t') (ht : t.Legible v) (leaf : TypeDefinition → α → List α → β)
    (side : Head → List α → β) (conjoin : ExpressionDefinition → β → β → β) :
    t'.unfoldWith leaf side conjoin =
      conjoin c (t.unfoldWith leaf side conjoin) (side s.1 s.2) := by
  rw [Typing.unfoldWith, Typing.unfoldWith, h.conjunction, h.sides, h.type, h.term, h.base]
  by_cases hfolded : t.isFolded = true
  · rw [h.previous hfolded]
    simp only [List.foldl_append, List.foldl_cons, List.foldl_nil]
  · have hplain := Bool.not_eq_true _ ▸ hfolded
    rw [(sides_eq_nil t).2 hplain, ht.plain hplain]
    rfl

/-- The new conjunct of `t'` has the texts of `parts` and the term and components of `t`. -/
structure Absorbed (v : Vocabulary) (c : ExpressionDefinition) (t : Typing Expr)
    (side : Head × List Expr) (parts : List Expr) (t' : Typing Expr) : Prop
    extends Extends c t side t' where
  texts : parts.map Expr.text = side.2.map Expr.text
  legible : t'.Legible v

theorem absorb?_eq_some {t t' : Typing Expr} {e : Expr} (h : t.absorb? c e = some t') :
    (∀ c' ∈ t.conjunction, c'.symbol = c.symbol) ∧
      ((∃ d parent term components, e = .node (.qualified d parent) (term :: components) ∧
        t.acceptsQualifier parent term = true ∧ t' = t.qualified c d components) ∨
      (∃ (a : Attachment Expr) (parent : TypeDefinition) (term : Expr) (components : List Expr),
        e = .node (a.head parent) (a.own?.toList ++ term :: components) ∧
        t.acceptsAttachment parent term a.requiredQualifier components = true ∧
        t' = t.attached c a)) := by
  unfold absorb? at h
  split at h
  · cases h
  · next hsame =>
    refine ⟨fun c' hc' => ?_, ?_⟩
    · rw [Option.mem_def.1 hc'] at hsame
      simpa using hsame
    · obtain ⟨extended, hextended, rfl⟩ := Option.map_eq_some_iff.1 h
      rcases extend?_eq_some hextended with
        ⟨d, parent, term, components, he, haccepts, rfl⟩ |
        ⟨a, parent, term, components, he, haccepts, rfl⟩
      · exact .inl ⟨d, parent, term, components, he, haccepts, rfl⟩
      · exact .inr ⟨a, parent, term, components, he, haccepts, rfl⟩

/-- Only heads that bind nothing are folded. -/
theorem exists_node_of_absorb? {t t' : Typing Expr} {e : Expr} (h : t.absorb? c e = some t') :
    ∃ head parts, e = .node head parts ∧ head.boundNames = [] := by
  rcases (absorb?_eq_some h).2 with ⟨d, parent, term, components, rfl, -⟩ |
    ⟨a, parent, term, components, rfl, -⟩
  · exact ⟨_, _, rfl, rfl⟩
  · refine ⟨_, _, rfl, ?_⟩
    cases a <;> rfl

theorem mem_children_of_absorb? {t t' : Typing Expr} {e : Expr} (h : t.absorb? c e = some t')
    {x : Expr} (hx : x ∈ t'.children) : x ∈ t.children ∨ x ∈ e.children := by
  rcases (absorb?_eq_some h).2 with ⟨d, parent, term, components, rfl, haccepts, rfl⟩ |
    ⟨a, parent, term, components, rfl, -, rfl⟩
  · have hattachments : t.attachments = [] := by
      simp only [acceptsQualifier, Bool.and_eq_true, List.isEmpty_iff] at haccepts
      exact haccepts.2
    rcases mem_children.1 hx with rfl | hx | ⟨a, ha, -⟩
    · exact .inl (mem_children.2 (.inl rfl))
    · exact .inr (List.mem_cons_of_mem term hx)
    · exact absurd ha (by simp [Typing.qualified, hattachments])
  · rcases mem_children.1 hx with rfl | hx | ⟨b, hb, hown⟩
    · exact .inl (mem_children.2 (.inl rfl))
    · exact .inl (mem_children.2 (.inr (.inl hx)))
    · rcases List.mem_append.1 hb with hb | hb
      · exact .inl (mem_children.2 (.inr (.inr ⟨b, hb, hown⟩)))
      · rw [List.mem_singleton.1 hb] at hown
        exact .inr (by simp [Expr.children, hown])

theorem isAbout_eq_true {t : Typing Expr} {parent : TypeDefinition} {term : Expr}
    (h : t.isAbout parent term = true) :
    parent.symbol = t.type.symbol ∧ term.text = t.term.text := by
  simpa [isAbout] using h

/-- The conjunctions inside a statement are all by one definition. -/
theorem Legible.conjunction_eq {t : Typing α} (ht : t.Legible v) (hc : v.Conjoins c)
    (hsame : ∀ c' ∈ t.conjunction, c'.symbol = c.symbol) (h : t.isFolded = true) :
    t.conjunction = some c := by
  obtain ⟨c', hc', hconjoins⟩ := ht.conjunction h
  rw [hc', hc.eq hconjoins (hsame c' hc')]

theorem absorbed_qualified {t : Typing Expr} (ht : t.Legible v) (hc : v.Conjoins c)
    {d : QualifierDefinition} {parent : TypeDefinition} (hd : v.Opens (.qualified d parent))
    {term : Expr} {components : List Expr} (hlength : components.length = d.componentNames.length)
    (haccepts : t.acceptsQualifier parent term = true) :
    parent = t.type ∧ Absorbed v c t (.qualified d t.type, t.term :: components)
      (term :: components) (t.qualified c d components) := by
  simp only [acceptsQualifier, Bool.and_eq_true, Option.isNone_iff_eq_none,
    List.isEmpty_iff] at haccepts
  obtain ⟨⟨⟨habout, hdefault⟩, hqualifier⟩, hattachments⟩ := haccepts
  obtain ⟨hsymbol, hterm⟩ := isAbout_eq_true habout
  obtain rfl := ht.type.eq_of_opens hd rfl hsymbol
  have hbase : t.baseComponents = [] := by
    rw [← List.length_eq_zero_iff, ht.base, TypeDefinition.defaultArity, hdefault]
  refine ⟨rfl, ?_⟩
  exact
    { texts := by rw [List.map_cons, List.map_cons, hterm]
      sides := by
        rw [sides_qualified hattachments]
        simp [Typing.sides, hqualifier, hattachments]
      type := rfl
      term := rfl
      base := by rw [hbase]; rfl
      conjunction := rfl
      previous := by simp [isFolded, hqualifier, hattachments]
      legible := ht.qualified hc hd hlength hdefault hattachments }

theorem absorbed_attached {t : Typing Expr} (ht : t.Legible v) (hc : v.Conjoins c)
    (hsame : ∀ c' ∈ t.conjunction, c'.symbol = c.symbol) {a : Attachment Expr}
    {parent : TypeDefinition} (ha : v.Opens (a.head parent)) {term : Expr} {components : List Expr}
    (hlength : components.length = parent.qualifierArity a.requiredQualifier)
    (haccepts : t.acceptsAttachment parent term a.requiredQualifier components = true) :
    parent = t.type ∧ Absorbed v c t (t.side a) (a.own?.toList ++ term :: components)
      (t.attached c a) := by
  rw [acceptsAttachment, Bool.and_eq_true] at haccepts
  obtain ⟨hsymbol, hterm⟩ := isAbout_eq_true haccepts.1
  obtain rfl := ht.type.eq_of_opens ha (a.parent?_head parent) hsymbol
  have hcomponents := texts_of_qualifierMatches hlength haccepts.2
  refine ⟨rfl, ?_⟩
  exact
    { texts := by rw [side_eq]; simp [hterm, hcomponents]
      sides := sides_attached t a
      type := rfl
      term := rfl
      base := rfl
      conjunction := rfl
      previous := ht.conjunction_eq hc hsame
      legible := by
        apply ht.attached hc ha
        · have hlengths := congrArg List.length hcomponents
          rw [List.length_map, List.length_map] at hlengths
          rw [← hlengths, hlength]
        · exact qualifier_of_qualifierMatches haccepts.2 }

/-- A legible statement absorbs only a legible conjunct, and keeps everything but the copies of its
own term and components. -/
theorem absorbed_of_absorb? {t t' : Typing Expr} (ht : t.Legible v) (hc : v.Conjoins c)
    {head : Head} {parts : List Expr} (hhead : v.Opens head)
    (hlength : parts.length = head.partCount) (h : t.absorb? c (.node head parts) = some t') :
    ∃ xs, Absorbed v c t (head, xs) parts t' := by
  obtain ⟨hsame, ⟨d, parent, term, components, he, haccepts, rfl⟩ |
    ⟨a, parent, term, components, he, haccepts, rfl⟩⟩ := absorb?_eq_some h
  · cases he
    have hcomponents : components.length = d.componentNames.length := by
      rw [List.length_cons, Head.partCount, Nat.add_comm] at hlength
      omega
    obtain ⟨rfl, habsorbed⟩ := absorbed_qualified ht hc hhead hcomponents haccepts
    exact ⟨_, habsorbed⟩
  · cases he
    have hcomponents : components.length = parent.qualifierArity a.requiredQualifier := by
      rw [Attachment.partCount_head, List.length_append, List.length_cons] at hlength
      omega
    obtain ⟨rfl, habsorbed⟩ := absorbed_attached ht hc hsame hhead hcomponents haccepts
    rw [side_eq] at habsorbed
    exact ⟨_, habsorbed⟩

theorem absorb?_qualified {type : TypeDefinition} (h : type.defaultQualifier = none) (term : Expr)
    (d : QualifierDefinition) (components : List Expr) :
    (bare type term []).absorb? c (.node (.qualified d type) (term :: components)) =
      some ((bare type term []).qualified c d components) := by
  simp [absorb?, extend?, acceptsQualifier, isAbout, bare, Typing.qualified, h]

theorem qualifierMatches_self {t : Typing Expr} {a : Attachment Expr}
    (h : ∀ q ∈ a.requiredQualifier, t.type.defaultQualifier = none →
      t.qualifier.map (·.symbol) = some q) :
    t.qualifierMatches a.requiredQualifier (if t.usesQualifier a then t.components else []) =
      true := by
  unfold qualifierMatches usesQualifier
  cases hrequired : a.requiredQualifier with
  | none => cases t.type.defaultQualifier <;> simp
  | some q =>
    cases hdefault : t.type.defaultQualifier with
    | none => simp [h q hrequired hdefault]
    | some d => simp

theorem absorb?_side {t : Typing Expr} {a : Attachment Expr}
    (hsame : ∀ c' ∈ t.conjunction, c' = c)
    (h : ∀ q ∈ a.requiredQualifier, t.type.defaultQualifier = none →
      t.qualifier.map (·.symbol) = some q) :
    t.absorb? c (.node (t.side a).1 (t.side a).2) = some (t.attached c a) := by
  have hconjunction : t.conjunction.any (·.symbol ≠ c.symbol) = false := by
    cases hc : t.conjunction with
    | none => rfl
    | some c' => simp [hsame c' hc]
  have haccepts : t.acceptsAttachment t.type t.term a.requiredQualifier
      (if t.usesQualifier a then t.components else []) = true := by
    rw [acceptsAttachment, qualifierMatches_self h]
    simp [isAbout]
  have hextend : t.extend? (.node (t.side a).1 (t.side a).2) =
      some { t with attachments := t.attachments ++ [a] } := by
    rw [side_eq]
    cases a with
    | property d => exact if_pos haccepts
    | relatedObject d own => exact if_pos haccepts
  rw [absorb?, hconjunction, hextend]
  rfl

def detached (t : Typing α) : Typing α :=
  { t with
    attachments := t.attachments.dropLast
    conjunction := if t.attachments.dropLast.isEmpty && t.qualifier.isNone then none
      else t.conjunction }

theorem isFolded_detached (t : Typing α) :
    t.detached.isFolded = !(t.attachments.dropLast.isEmpty && t.qualifier.isNone) := by
  cases hq : t.qualifier <;> simp [isFolded, detached, hq]

theorem attached_detached {t : Typing α} {as : List (Attachment α)} {a : Attachment α}
    (h : t.attachments = as ++ [a]) (hc : t.conjunction = some c) :
    t.detached.attached c a = t := by
  obtain ⟨type, term, qualifier, components, attachments, conjunction⟩ := t
  subst h hc
  simp [detached, attached]

theorem Legible.detached {t : Typing α} (ht : t.Legible v) : t.detached.Legible v where
  type := ht.type
  base := ht.base
  sides := by
    have hside : t.detached.side = t.side := by
      funext b
      rw [side_eq, side_eq]
      rfl
    intro s hs
    apply ht.sides
    rw [Typing.sides, List.mem_append] at hs ⊢
    refine hs.imp id fun hs => ?_
    rw [hside] at hs
    obtain ⟨a, ha, rfl⟩ := List.mem_map.1 hs
    exact List.mem_map_of_mem (List.dropLast_subset _ ha)
  qualifier := ht.qualifier
  required := fun a ha => ht.required a (List.dropLast_subset _ ha)
  conjunction := by
    intro h
    have hfolded : t.isFolded = true := by
      cases hq : t.qualifier <;> cases hattachments : t.attachments <;>
        simp_all [isFolded, Typing.detached]
    rw [isFolded_detached, Bool.not_eq_true'] at h
    obtain ⟨c, hc⟩ := ht.conjunction hfolded
    exact ⟨c, by rw [Typing.detached, if_neg (by simp [h])]; exact hc.1, hc.2⟩
  plain := by
    intro h
    rw [isFolded_detached, Bool.not_eq_false'] at h
    rw [Typing.detached, if_pos h]

/-- What a statement reads as: the conjuncts of its unfolding, folded again. -/
def reread (t : Typing Expr) : Expr :=
  t.unfoldWith (fun type term components => .typing (bare type term components)) .node
    (fun c left right => Expr.close (.defined c []) [left, right])

end Typing

namespace Expr

theorem close_of_absorb? {c : ExpressionDefinition} {t t' : Typing Expr} {e : Expr}
    (hc : c.conjoins = true) (h : t.absorb? c e = some t') :
    close (.defined c []) [.typing t, e] = .typing t' := by
  rw [close_conjunction hc, fold?_eq_some.2 (conjoin_eq_ok.2 ⟨t, t', rfl, h, rfl⟩),
    Option.getD_some]

end Expr

theorem Typing.reread_eq {v : Vocabulary} {t : Typing Expr} (ht : t.Legible v) :
    t.reread = .typing t := by
  induction hattachments : t.attachments using List.reverseRecOn generalizing t with
  | nil =>
    obtain ⟨type, term, qualifier, components, attachments, conjunction⟩ := t
    cases qualifier with
    | none =>
      obtain rfl : attachments = [] := hattachments
      obtain rfl : conjunction = none := ht.plain rfl
      rfl
    | some d =>
      obtain rfl : attachments = [] := hattachments
      obtain ⟨c, hc, hconjoins⟩ := ht.conjunction rfl
      obtain rfl : conjunction = some c := hc
      have habsorb := absorb?_qualified (c := c) (ht.qualifier rfl) term d components
      exact Expr.close_of_absorb? hconjoins.conjoins habsorb
  | append_singleton as a ih =>
    have hfolded : t.isFolded = true := by simp [isFolded, hattachments]
    obtain ⟨c, hc, hconjoins⟩ := ht.conjunction hfolded
    have ht' : t.detached.attached c a = t := attached_detached hattachments hc
    have hsame : ∀ c' ∈ t.detached.conjunction, c' = c := by
      intro c' hc'
      rw [detached, hc] at hc'
      split at hc' <;> simp_all
    have hextends : Extends c t.detached (t.detached.side a) t := by
      have hsides := sides_attached (c := c) t.detached a
      rw [ht'] at hsides
      refine ⟨rfl, rfl, rfl, hsides, hc, fun h => ?_⟩
      rw [isFolded_detached, Bool.not_eq_true'] at h
      rw [detached, if_neg (by simp [h]), hc]
    have hprevious := ih ht.detached (by simp [detached, hattachments])
    rw [reread, hextends.unfoldWith ht.detached, ← reread, hprevious,
      Expr.close_of_absorb? hconjoins.conjoins (absorb?_side hsame ?_), ht']
    exact ht.required a (by simp [hattachments])

end Formulary
