import Formulary.Proofs.Lexemes
import Formulary.Vocabulary
import Mathlib.Data.List.Nodup

/-! # Consistent definitions

Definitions make a vocabulary just when they are consistent: every symbol is a token of its own that
nothing else claims, no symbol stands twice in one table, and what requires a qualifier belongs to a
type that has it. The tables then hold the definitions and nothing else, and what a type lists is
found together with that type. -/

namespace Formulary

theorem isWord_of_isSymbol {symbol : String} (h : isSymbol symbol = true) :
    Text.isWord symbol = true := by
  simp only [isSymbol, Bool.and_eq_true] at h
  rw [Text.isWord, Bool.and_eq_true]
  exact ⟨h.1.1.1, h.2⟩

/-- A symbol that is read as a whole, and that nothing else claims. -/
structure Usable (symbol : String) : Prop where
  token : ∃ t, Token.scan symbol = [t] ∧ t.text = symbol ∧ t.isBracket = false
  ne_applicationWord : symbol ≠ applicationWord
  no_dollar : symbol.toList.head? ≠ some '$'

/-- The check of a symbol forbids just the characters that keep it from being one token. -/
theorem isWord_iff_token {text : String} : Text.isWord text = true ↔
    ∃ t, Token.scan text = [t] ∧ t.text = text ∧ t.isBracket = false := by
  constructor
  · intro h
    obtain ⟨hne, hchars⟩ := Text.isWord_iff.1 h
    have hcs : text.toList ≠ [] := fun heq => hne (String.toList_eq_nil_iff.1 heq)
    refine ⟨_, Token.scanFrom_eq_singleton hcs hchars 0, String.ofList_toList, ?_⟩
    exact Token.isBracket_of_isWord (by rwa [String.ofList_toList])
  · rintro ⟨t, hscan, htext, hbracket⟩
    have ht := Token.isBracket_or_isWord_of_mem_scan (hscan ▸ List.mem_singleton_self t)
    exact htext ▸ ht.resolve_left (by simp [hbracket])

theorem isSymbol_iff_usable {symbol : String} : isSymbol symbol = true ↔ Usable symbol := by
  have hsplit : isSymbol symbol = true ↔
      Text.isWord symbol = true ∧ symbol ≠ applicationWord ∧ symbol.toList.head? ≠ some '$' := by
    simp only [isSymbol, Text.isWord, Bool.and_eq_true, decide_eq_true_eq]
    tauto
  rw [hsplit, isWord_iff_token]
  exact ⟨fun h => ⟨h.1, h.2.1, h.2.2⟩, fun h => ⟨h.token, h.ne_applicationWord, h.no_dollar⟩⟩

namespace TypeDefinition

theorem unresolved_eq_none {t : TypeDefinition} {required : Option String} :
    t.unresolved required = none ↔ ∀ symbol ∈ required, ∃ q ∈ t.qualifiers, q.symbol = symbol := by
  cases required with
  | none => simp [unresolved]
  | some symbol => simp [unresolved, qualifier?]

end TypeDefinition

namespace Definitions

theorem entryFault?_eq_none {seen : List (Table × String)} {e : Entry} :
    entryFault? seen e = none ↔
      e.unresolved = none ∧ isSymbol e.symbol = true ∧ (e.table, e.symbol) ∉ seen := by
  unfold entryFault?
  cases e.unresolved with
  | some required => simp
  | none => cases isSymbol e.symbol <;> simp

/-- Entries without a fault are symbols, each new in its table. -/
theorem faultAfter?_eq_none {seen : List (Table × String)} {es : List Entry} :
    faultAfter? seen es = none ↔
      (∀ e ∈ es, e.unresolved = none ∧ isSymbol e.symbol = true ∧ (e.table, e.symbol) ∉ seen) ∧
        (es.map fun e => (e.table, e.symbol)).Nodup := by
  induction es generalizing seen with
  | nil => simp [faultAfter?]
  | cons e es ih =>
    have hrest : faultAfter? seen (e :: es) = none ↔
        entryFault? seen e = none ∧ faultAfter? ((e.table, e.symbol) :: seen) es = none := by
      rw [faultAfter?]
      cases entryFault? seen e <;> simp
    rw [hrest, entryFault?_eq_none, ih, List.forall_mem_cons, List.map_cons, List.nodup_cons]
    simp only [List.mem_cons, not_or, List.mem_map, not_exists, not_and]
    constructor
    · rintro ⟨hfirst, hes, hnodup⟩
      exact ⟨⟨hfirst, fun x hx => ⟨(hes x hx).1, (hes x hx).2.1, (hes x hx).2.2.2⟩⟩,
        fun x hx => (hes x hx).2.2.1, hnodup⟩
    · rintro ⟨⟨hfirst, hes⟩, hnew, hnodup⟩
      exact ⟨hfirst, fun x hx => ⟨(hes x hx).1, (hes x hx).2.1, hnew x hx, (hes x hx).2.2⟩, hnodup⟩

def owned {α : Type} (d : Definitions) (list : TypeDefinition → List α) :
    List (α × TypeDefinition) :=
  d.types.flatMap fun t => (list t).map (·, t)

def symbols (d : Definitions) : Table → List String
  | .expressions => d.expressions.map (·.symbol)
  | .types => d.types.map (·.symbol)
  | .qualifiers => (d.owned (·.qualifiers)).map (·.1.symbol)
  | .properties => (d.owned (·.properties)).map (·.1.symbol)
  | .relatedObjects => (d.owned (·.relatedObjects)).map (·.1.symbol)
  | .relations => d.relations.map (·.symbol)
  | .standaloneProperties => d.standaloneProperties.map (·.symbol)

structure Consistent (d : Definitions) : Prop where
  usable : ∀ table, ∀ symbol ∈ d.symbols table, Usable symbol
  nodup : ∀ table, (d.symbols table).Nodup
  property : ∀ t ∈ d.types, ∀ p ∈ t.properties, ∀ symbol ∈ p.requiredQualifier,
    ∃ q ∈ t.qualifiers, q.symbol = symbol
  relatedObject : ∀ t ∈ d.types, ∀ o ∈ t.relatedObjects, ∀ symbol ∈ o.requiredQualifier,
    ∃ q ∈ t.qualifiers, q.symbol = symbol

theorem mem_owned {α : Type} {d : Definitions} {list : TypeDefinition → List α} {x : α}
    {t : TypeDefinition} : (x, t) ∈ d.owned list ↔ t ∈ d.types ∧ x ∈ list t := by
  simp [owned, and_comm]

theorem symbols_eq (d : Definitions) (table : Table) :
    d.symbols table = (d.entries.filter (·.table = table)).map (·.symbol) := by
  have htypes : d.types.map (·.symbol) = d.types.flatMap fun t => [t.symbol] :=
    List.map_eq_flatMap
  cases table <;> simp [symbols, owned, entries, TypeDefinition.entries, List.filter_flatMap,
    List.filter_map, List.map_flatMap, htypes, Function.comp_def]

/-- Entries are new in their tables if each table has every symbol once. -/
theorem nodup_entries_iff (es : List Entry) : (es.map fun e => (e.table, e.symbol)).Nodup ↔
    ∀ table, ((es.filter (·.table = table)).map (·.symbol)).Nodup := by
  induction es with
  | nil => simp
  | cons e es ih =>
    have hfilter (table : Table) : (((e :: es).filter (·.table = table)).map (·.symbol)).Nodup ↔
        (e.table = table → e.symbol ∉ (es.filter (·.table = table)).map (·.symbol)) ∧
          ((es.filter (·.table = table)).map (·.symbol)).Nodup := by
      by_cases h : e.table = table <;> simp [h]
    simp only [hfilter, forall_and, forall_eq', List.map_cons, List.nodup_cons, ih]
    simp [and_comm, eq_comm]

theorem forall_mem_entries {d : Definitions} {P : String → Prop} :
    (∀ e ∈ d.entries, P e.symbol) ↔ ∀ table, ∀ symbol ∈ d.symbols table, P symbol := by
  simp only [symbols_eq, List.mem_map, List.mem_filter]
  constructor
  · rintro h table _ ⟨e, ⟨he, -⟩, rfl⟩
    exact h e he
  · exact fun h e he => h e.table _ ⟨e, ⟨he, by simp⟩, rfl⟩

theorem forall_unresolved {d : Definitions} : (∀ e ∈ d.entries, e.unresolved = none) ↔
    (∀ t ∈ d.types, ∀ p ∈ t.properties, t.unresolved p.requiredQualifier = none) ∧
      ∀ t ∈ d.types, ∀ o ∈ t.relatedObjects, t.unresolved o.requiredQualifier = none := by
  simp only [entries, TypeDefinition.entries, List.forall_mem_append, List.forall_mem_flatMap,
    List.forall_mem_cons, List.forall_mem_map, forall_and, List.cons_append]
  simp

theorem fault?_eq_none_iff {d : Definitions} : d.fault? = none ↔ d.Consistent := by
  rw [fault?, faultAfter?_eq_none]
  simp only [List.not_mem_nil, not_false_eq_true, and_true, forall_and, isSymbol_iff_usable,
    forall_unresolved, forall_mem_entries, nodup_entries_iff, ← symbols_eq,
    TypeDefinition.unresolved_eq_none]
  exact ⟨fun ⟨⟨⟨hp, ho⟩, husable⟩, hnodup⟩ => ⟨husable, hnodup, hp, ho⟩,
    fun h => ⟨⟨⟨h.property, h.relatedObject⟩, h.usable⟩, h.nodup⟩⟩

end Definitions

/-- Where each key is listed once, what is found under one is what is listed with it. -/
theorem find?_key_eq_some_iff {α : Type} {key : α → String} {xs : List α} (h : (xs.map key).Nodup)
    {symbol : String} {x : α} :
    xs.find? (key · = symbol) = some x ↔ x ∈ xs ∧ key x = symbol := by
  induction xs with
  | nil => simp
  | cons y ys ih =>
    rw [List.map_cons, List.nodup_cons] at h
    by_cases hy : key y = symbol
    · have hlater (z : α) (hz : z ∈ ys) : key z ≠ symbol := fun heq =>
        h.1 (hy ▸ heq ▸ List.mem_map_of_mem hz)
      rw [List.find?_cons_of_pos (by simpa using hy), Option.some.injEq, List.mem_cons]
      constructor
      · rintro rfl
        exact ⟨.inl rfl, hy⟩
      · rintro ⟨rfl | hx, heq⟩
        · rfl
        · exact absurd heq (hlater x hx)
    · rw [List.find?_cons_of_neg (by simpa using hy), ih h.2, List.mem_cons]
      constructor
      · exact fun ⟨hx, heq⟩ => ⟨.inr hx, heq⟩
      · rintro ⟨rfl | hx, heq⟩
        · exact absurd heq hy
        · exact ⟨hx, heq⟩

namespace Vocabulary

section

variable {v : Vocabulary} {symbol : String} {parent : TypeDefinition}

theorem consistent (v : Vocabulary) : v.definitions.Consistent :=
  Definitions.fault?_eq_none_iff.1 v.faultless

theorem expression?_eq_some_iff {d : ExpressionDefinition} :
    v.expression? symbol = some d ↔ d ∈ v.definitions.expressions ∧ d.symbol = symbol :=
  find?_key_eq_some_iff (v.consistent.nodup .expressions)

theorem type?_eq_some_iff {t : TypeDefinition} :
    v.type? symbol = some t ↔ t ∈ v.definitions.types ∧ t.symbol = symbol :=
  find?_key_eq_some_iff (v.consistent.nodup .types)

theorem relation?_eq_some_iff {d : RelationDefinition} :
    v.relation? symbol = some d ↔ d ∈ v.definitions.relations ∧ d.symbol = symbol :=
  find?_key_eq_some_iff (v.consistent.nodup .relations)

theorem standalone?_eq_some_iff {d : StandaloneDefinition} :
    v.standalone? symbol = some d ↔ d ∈ v.definitions.standaloneProperties ∧ d.symbol = symbol :=
  find?_key_eq_some_iff (v.consistent.nodup .standaloneProperties)

/-- What is looked for in one type after the other is looked for in what they have together. -/
theorem findSome?_types {α : Type} (d : Definitions) (list : TypeDefinition → List α)
    (key : α → String) (symbol : String) :
    d.types.findSome? (fun t => ((list t).find? (key · = symbol)).map (·, t)) =
      (d.owned list).find? (key ·.1 = symbol) := by
  simp only [Definitions.owned, List.find?_flatMap, List.find?_map, Function.comp_def]

theorem findSome?_types_eq_some_iff {α : Type} {list : TypeDefinition → List α} {key : α → String}
    (h : ((v.definitions.owned list).map (key ·.1)).Nodup) {x : α} :
    v.definitions.types.findSome? (fun t => ((list t).find? (key · = symbol)).map (·, t)) =
        some (x, parent) ↔
      parent ∈ v.definitions.types ∧ x ∈ list parent ∧ key x = symbol := by
  rw [findSome?_types, find?_key_eq_some_iff h, Definitions.mem_owned, and_assoc]

theorem qualifier?_eq_some_iff {d : QualifierDefinition} :
    v.qualifier? symbol = some (d, parent) ↔
      parent ∈ v.definitions.types ∧ d ∈ parent.qualifiers ∧ d.symbol = symbol :=
  findSome?_types_eq_some_iff (v.consistent.nodup .qualifiers)

theorem property?_eq_some_iff {d : PropertyDefinition} :
    v.property? symbol = some (d, parent) ↔
      parent ∈ v.definitions.types ∧ d ∈ parent.properties ∧ d.symbol = symbol :=
  findSome?_types_eq_some_iff (v.consistent.nodup .properties)

theorem relatedObject?_eq_some_iff {d : RelatedObjectDefinition} :
    v.relatedObject? symbol = some (d, parent) ↔
      parent ∈ v.definitions.types ∧ d ∈ parent.relatedObjects ∧ d.symbol = symbol :=
  findSome?_types_eq_some_iff (v.consistent.nodup .relatedObjects)

theorem type?_symbol_iff {t : TypeDefinition} :
    v.type? t.symbol = some t ↔ t ∈ v.definitions.types := by
  simp [type?_eq_some_iff]

end

/-- The tables have the definitions under their symbols and nothing else. What a type lists comes
with the type that is found under the type's own symbol. -/
structure Holds (v : Vocabulary) (d : Definitions) : Prop where
  expression : ∀ symbol e, v.expression? symbol = some e ↔ e ∈ d.expressions ∧ e.symbol = symbol
  type : ∀ symbol t, v.type? symbol = some t ↔ t ∈ d.types ∧ t.symbol = symbol
  relation : ∀ symbol r, v.relation? symbol = some r ↔ r ∈ d.relations ∧ r.symbol = symbol
  standalone : ∀ symbol p, v.standalone? symbol = some p ↔
    p ∈ d.standaloneProperties ∧ p.symbol = symbol
  qualifier : ∀ symbol q t, v.qualifier? symbol = some (q, t) ↔
    v.type? t.symbol = some t ∧ q ∈ t.qualifiers ∧ q.symbol = symbol
  property : ∀ symbol p t, v.property? symbol = some (p, t) ↔
    v.type? t.symbol = some t ∧ p ∈ t.properties ∧ p.symbol = symbol
  relatedObject : ∀ symbol o t, v.relatedObject? symbol = some (o, t) ↔
    v.type? t.symbol = some t ∧ o ∈ t.relatedObjects ∧ o.symbol = symbol

theorem holds (v : Vocabulary) : v.Holds v.definitions where
  expression _ _ := expression?_eq_some_iff
  type _ _ := type?_eq_some_iff
  relation _ _ := relation?_eq_some_iff
  standalone _ _ := standalone?_eq_some_iff
  qualifier _ _ _ := by rw [qualifier?_eq_some_iff, type?_symbol_iff]
  property _ _ _ := by rw [property?_eq_some_iff, type?_symbol_iff]
  relatedObject _ _ _ := by rw [relatedObject?_eq_some_iff, type?_symbol_iff]

/-- Definitions make a vocabulary just when they are consistent, and it holds just them. -/
theorem build_iff_consistent (d : Definitions) :
    ((∃ v, build d = .ok v) ↔ d.Consistent) ∧ ∀ v, build d = .ok v → v.Holds d := by
  refine ⟨⟨?_, fun h => ?_⟩, ?_⟩
  · rintro ⟨v, hv⟩
    exact build_eq_ok_iff.1 hv ▸ v.consistent
  · exact ⟨⟨d, Definitions.fault?_eq_none_iff.2 h⟩, build_eq_ok_iff.2 rfl⟩
  · intro v hv
    exact build_eq_ok_iff.1 hv ▸ v.holds

end Vocabulary

end Formulary
