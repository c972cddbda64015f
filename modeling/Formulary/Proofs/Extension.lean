import Formulary.Proofs.RoundTrip

/-! # Vocabularies with more entries

Reading asks the tables for nothing but the words of the text, and takes what it needs to know about
a symbol from the entry found under it. Entries that are added under other symbols are never found,
so a text is read as it was before, and where it has a fault the fault is the same. -/

namespace Formulary

open Formulary.Parser (Frame Awaited State advance factHead? run start)
open Token (words)

/-- Behind keys listed once, entries under other keys are not found. -/
theorem find?_key_of_perm {α : Type} {key : α → String} {xs more ys : List α} {symbol : String}
    (h : (xs ++ more).Perm ys) (hnodup : (ys.map key).Nodup) (hfresh : symbol ∉ more.map key) :
    ys.find? (key · = symbol) = xs.find? (key · = symbol) := by
  have hall : ((xs ++ more).map key).Nodup := (h.map key).nodup_iff.2 hnodup
  have hxs : (xs.map key).Nodup := by
    rw [List.map_append] at hall
    exact hall.of_append_left
  refine Option.ext fun x => ?_
  rw [find?_key_eq_some_iff hnodup, find?_key_eq_some_iff hxs, ← h.mem_iff, List.mem_append]
  refine and_congr_left fun hx => or_iff_left fun hmore => hfresh ?_
  exact List.mem_map.2 ⟨x, hmore, hx⟩

namespace Definitions

/-- Further entries are added to each of the lists, at any places. -/
structure Adds (d more d' : Definitions) : Prop where
  expressions : (d.expressions ++ more.expressions).Perm d'.expressions
  types : (d.types ++ more.types).Perm d'.types
  relations : (d.relations ++ more.relations).Perm d'.relations
  standaloneProperties :
    (d.standaloneProperties ++ more.standaloneProperties).Perm d'.standaloneProperties

/-- What further types have in one of their lists is added to what the types have. -/
theorem Adds.owned {α : Type} {d more d' : Definitions} (h : d.Adds more d')
    (list : TypeDefinition → List α) : (d.owned list ++ more.owned list).Perm (d'.owned list) := by
  rw [Definitions.owned, Definitions.owned, ← List.flatMap_append]
  exact h.types.flatMap_right _

end Definitions

namespace Vocabulary

variable {v v' : Vocabulary} {word : String}

/-- Both vocabularies have the same under a word, or neither has anything. -/
structure Agree (v v' : Vocabulary) (word : String) : Prop where
  expression : v'.expression? word = v.expression? word
  type : v'.type? word = v.type? word
  factHead : factHead? v' word = factHead? v word

theorem advance_congr {t : Token} (h : v.Agree v' t.text) (awaited : Awaited) :
    advance v' t awaited = advance v t awaited := by
  have hstart (stack : List Frame) : start v' t stack = start v t stack := by
    rw [start, start, h.expression, h.type, h.factHead]
  cases awaited with
  | expression stack =>
    cases stack with
    | nil => exact hstart []
    | cons frame stack =>
      cases frame with
      | arguments arguments => rw [advance, advance, hstart]
      | _ => exact hstart _
  | _ => rfl

theorem run_congr {ts : List Token} (h : ∀ t ∈ ts, v.Agree v' t.text) (length : Nat) (s : State) :
    run v' length s ts = run v length s ts := by
  induction ts generalizing s with
  | nil => cases s <;> rfl
  | cons t ts ih =>
    rw [List.forall_mem_cons] at h
    cases s with
    | complete e => rfl
    | awaiting awaited =>
      rw [run, run, advance_congr h.1]
      cases advance v t awaited with
      | error fault => rfl
      | ok s => exact ih h.2 s

/-- Only what the tables have under the words of a text matters to reading it. -/
theorem parse_congr {text : String} (h : ∀ word ∈ words text, v.Agree v' word) :
    Expr.parse v' text = Expr.parse v text :=
  run_congr (fun _ ht => h _ (List.mem_map_of_mem ht)) _ _

/-- Under a symbol that no added entry has, the tables have what they had. -/
theorem agree_of_adds {more : Definitions} (h : v.definitions.Adds more v'.definitions)
    (hfresh : ∀ table, word ∉ more.symbols table) : v.Agree v' word := by
  have howned {α : Type} {list : TypeDefinition → List α} {key : α → String}
      (hnodup : ((v'.definitions.owned list).map (key ·.1)).Nodup)
      (hfresh : word ∉ (more.owned list).map (key ·.1)) :
      v'.definitions.types.findSome? (fun t => ((list t).find? (key · = word)).map (·, t)) =
        v.definitions.types.findSome? fun t => ((list t).find? (key · = word)).map (·, t) := by
    rw [findSome?_types, findSome?_types]
    exact find?_key_of_perm (h.owned list) hnodup hfresh
  have hqualifier : v'.qualifier? word = v.qualifier? word :=
    howned (v'.consistent.nodup .qualifiers) (hfresh .qualifiers)
  have hproperty : v'.property? word = v.property? word :=
    howned (v'.consistent.nodup .properties) (hfresh .properties)
  have hobject : v'.relatedObject? word = v.relatedObject? word :=
    howned (v'.consistent.nodup .relatedObjects) (hfresh .relatedObjects)
  have hrelation : v'.relation? word = v.relation? word :=
    find?_key_of_perm h.relations (v'.consistent.nodup .relations) (hfresh .relations)
  have hstandalone : v'.standalone? word = v.standalone? word :=
    find?_key_of_perm h.standaloneProperties (v'.consistent.nodup .standaloneProperties)
      (hfresh .standaloneProperties)
  constructor
  · exact find?_key_of_perm h.expressions (v'.consistent.nodup .expressions) (hfresh .expressions)
  · exact find?_key_of_perm h.types (v'.consistent.nodup .types) (hfresh .types)
  · rw [factHead?, factHead?, hqualifier, hproperty, hobject, hrelation, hstandalone]

end Vocabulary

/-- A text without symbols of the added entries is read as before: as the same expression, or with
the same fault at the same place. -/
theorem Expr.parse_eq_of_adds {d more d' : Definitions} {v v' : Vocabulary} {text : String}
    (hbuild : Vocabulary.build d = .ok v) (hbuild' : Vocabulary.build d' = .ok v')
    (hadds : d.Adds more d') (hfresh : ∀ entry ∈ more.entries, entry.symbol ∉ words text) :
    Expr.parse v' text = Expr.parse v text := by
  obtain rfl := Vocabulary.build_eq_ok_iff.1 hbuild
  obtain rfl := Vocabulary.build_eq_ok_iff.1 hbuild'
  have hsymbols := (Definitions.forall_mem_entries (P := (· ∉ words text))).1 hfresh
  exact Vocabulary.parse_congr fun word hword =>
    Vocabulary.agree_of_adds hadds fun table hmem => hsymbols table word hmem hword

namespace Vocabulary

/-- A binder, and a type with a property. -/
def smallMore : Definitions :=
  ⟨[smallQuantifier], [⟨"set", none, [], [⟨"finite", none, none⟩], [], none⟩], [], []⟩

def smallExtended : Vocabulary :=
  ⟨⟨smallMore.expressions ++ small.definitions.expressions,
    smallMore.types ++ small.definitions.types, [], []⟩, by decide⟩

theorem adds_smallMore : small.definitions.Adds smallMore smallExtended.definitions :=
  ⟨List.perm_append_comm, List.perm_append_comm, .refl [], .refl []⟩

end Vocabulary

open Vocabulary in
/-- A statement, and a text that goes on behind one. -/
theorem Expr.parse_eq_of_adds_small : Expr.parse smallExtended smallText = .ok smallStatement ∧
    Expr.parse smallExtended "not x ( even" = .error ⟨.trailingTokens, 6, 12⟩ := by
  have hbuild {v : Vocabulary} : build v.definitions = .ok v := build_eq_ok_iff.2 rfl
  have hsame {text : String} (hfresh : ∀ entry ∈ smallMore.entries, entry.symbol ∉ words text) :
      Expr.parse smallExtended text = Expr.parse small text :=
    Expr.parse_eq_of_adds hbuild hbuild adds_smallMore hfresh
  rw [hsame (by decide), hsame (by decide)]
  exact ⟨by decide, by decide⟩

end Formulary
