import Formulary.Match.Template
import Formulary.Proofs.Names

/-! # What a match records

A match that succeeds goes down in the template and in the expression together and records, from
left to right, what stands opposite to each pattern and each binder. The bindings made from its
records look up the first record of a name, and every other value of a pattern has the same text. -/

namespace Formulary

namespace Record

def bound? : Record → Option (String × Value)
  | .binding pattern value _ scopes => some (pattern, ⟨value, some scopes.length⟩)
  | .boundName .. => none

def text? : Record → Option (String × String)
  | .binding pattern value _ _ => some (pattern, value.text)
  | .boundName .. => none

def named? : Record → Option (String × String)
  | .binding .. => none
  | .boundName template matched _ _ => some (template, matched)

end Record

namespace Bindings

variable {b b' : Bindings} {r : Record} {records : List Record} {pattern : String} {value : Value}

theorem lookup_cons_eq {α : Type} (key k : String) (x : α) (xs : List (String × α)) :
    ((k, x) :: xs).lookup key = if key = k then some x else xs.lookup key := by
  by_cases h : key = k
  · simp [h]
  · rw [List.lookup_cons, beq_false_of_ne h, if_neg h]

theorem lookup_filterMap_cons {α : Type} (f : Record → Option (String × α)) (r : Record)
    (rs : List Record) (key : String) :
    ((r :: rs).filterMap f).lookup key =
      ((f r).toList.lookup key).or ((rs.filterMap f).lookup key) := by
  cases h : f r with
  | none => simp [h]
  | some x =>
    obtain ⟨k, x⟩ := x
    by_cases hkey : key = k <;> simp [h, lookup_cons_eq, hkey]

/-- What adding a record does: the first of a name is put in front, another one changes nothing. -/
theorem addRecord?_cases (h : b.addRecord? r = some b') :
    (∃ pattern value path scopes, r = .binding pattern value path scopes ∧
      (b.value? pattern = none ∧
          b' = { b with values := (pattern, ⟨value, some scopes.length⟩) :: b.values } ∨
        ∃ found, b.value? pattern = some found ∧ found.expr.text = value.text ∧ b' = b)) ∨
      ∃ template matched index path, r = .boundName template matched index path ∧
        (b.boundName? template = none ∧
            b' = { b with boundNames := (template, matched) :: b.boundNames } ∨
          ∃ found, b.boundName? template = some found ∧ b' = b) := by
  cases r with
  | binding pattern value path scopes =>
    refine .inl ⟨pattern, value, path, scopes, rfl, ?_⟩
    rw [addRecord?, addValue?] at h
    split at h
    · next hnone => exact .inl ⟨hnone, (Option.some.inj h).symm⟩
    · next found hfound =>
      split at h
      · next htext => exact .inr ⟨found, hfound, htext, (Option.some.inj h).symm⟩
      · cases h
  | boundName template matched index path =>
    refine .inr ⟨template, matched, index, path, rfl, ?_⟩
    rw [addRecord?, addBoundName] at h
    split at h
    · next hnone => exact .inl ⟨hnone, (Option.some.inj h).symm⟩
    · next found hfound => exact .inr ⟨found, hfound, (Option.some.inj h).symm⟩

theorem value?_of_addRecord? (h : b.addRecord? r = some b') (p : String) :
    b'.value? p = (b.value? p).or (r.bound?.toList.lookup p) := by
  rcases addRecord?_cases h with ⟨pattern, value, path, scopes, rfl, ⟨hnone, rfl⟩ |
      ⟨found, hfound, -, rfl⟩⟩ | ⟨template, matched, index, path, rfl, ⟨-, rfl⟩ | ⟨-, -, rfl⟩⟩
  · by_cases hp : p = pattern
    · rw [hp, hnone]
      simp [value?, Record.bound?]
    · simp [value?, Record.bound?, lookup_cons_eq, hp]
  · by_cases hp : p = pattern
    · rw [hp, hfound, Option.some_or]
    · simp [Record.bound?, lookup_cons_eq, hp]
  · simp [value?, Record.bound?]
  · simp [Record.bound?]

theorem boundName?_of_addRecord? (h : b.addRecord? r = some b') (x : String) :
    b'.boundName? x = (b.boundName? x).or (r.named?.toList.lookup x) := by
  rcases addRecord?_cases h with ⟨pattern, value, path, scopes, rfl, ⟨-, rfl⟩ | ⟨-, -, -, rfl⟩⟩ |
    ⟨template, matched, index, path, rfl, ⟨hnone, rfl⟩ | ⟨found, hfound, rfl⟩⟩
  · simp [boundName?, Record.named?]
  · simp [Record.named?]
  · by_cases hx : x = template
    · rw [hx, hnone]
      simp [boundName?, Record.named?]
    · simp [boundName?, Record.named?, lookup_cons_eq, hx]
  · by_cases hx : x = template
    · rw [hx, hfound, Option.some_or]
    · simp [Record.named?, hx]

theorem text_of_addRecord? (h : b.addRecord? r = some b') (hr : r.bound? = some (pattern, value)) :
    ∃ found, b'.value? pattern = some found ∧ found.expr.text = value.expr.text := by
  rcases addRecord?_cases h with ⟨p, x, path, scopes, rfl, hadded⟩ | ⟨t, m, index, path, rfl, -⟩
  · obtain ⟨rfl, rfl⟩ := Prod.ext_iff.1 (Option.some.inj hr)
    rcases hadded with ⟨-, rfl⟩ | ⟨found, hfound, htext, rfl⟩
    · exact ⟨_, List.lookup_cons_self, rfl⟩
    · exact ⟨found, hfound, htext⟩
  · cases hr

/-- What is looked up after some records are added was there before or stands in the first record
that has it, if this is so for one record. -/
theorem lookup_of_foldlM {α : Type} {g : Bindings → String → Option α}
    {f : Record → Option (String × α)}
    (hstep : ∀ {b b' : Bindings} {r : Record}, b.addRecord? r = some b' →
      ∀ key, g b' key = (g b key).or ((f r).toList.lookup key))
    (h : records.foldlM addRecord? b = some b') (key : String) :
    g b' key = (g b key).or ((records.filterMap f).lookup key) := by
  induction records generalizing b with
  | nil => simp [← Option.some.inj h]
  | cons r rs ih =>
    rw [List.foldlM_cons] at h
    obtain ⟨next, hnext, h⟩ := Option.bind_eq_some_iff.1 h
    rw [ih h, hstep hnext, lookup_filterMap_cons, Option.or_assoc]

theorem text_of_foldlM (h : records.foldlM addRecord? b = some b') (hr : r ∈ records)
    (hvalue : r.bound? = some (pattern, value)) :
    ∃ found, b'.value? pattern = some found ∧ found.expr.text = value.expr.text := by
  induction records generalizing b with
  | nil => cases hr
  | cons r' rs ih =>
    rw [List.foldlM_cons] at h
    obtain ⟨next, hnext, hrest⟩ := Option.bind_eq_some_iff.1 h
    rcases List.mem_cons.1 hr with rfl | hr
    · obtain ⟨found, hfound, htext⟩ := text_of_addRecord? hnext hvalue
      exact ⟨found, by rw [lookup_of_foldlM value?_of_addRecord? hrest, hfound, Option.some_or],
        htext⟩
    · exact ih hrest hr

/-- The first record of a pattern gives its value. -/
theorem value?_of_ofRecords? (h : ofRecords? records = some b) (p : String) :
    b.value? p = (records.filterMap Record.bound?).lookup p := by
  rw [lookup_of_foldlM value?_of_addRecord? h]
  rfl

theorem boundName?_of_ofRecords? (h : ofRecords? records = some b) (x : String) :
    b.boundName? x = (records.filterMap Record.named?).lookup x := by
  rw [lookup_of_foldlM boundName?_of_addRecord? h]
  rfl

theorem lookup_of_nodup {α : Type} {key : String} {x : α} {xs : List (String × α)}
    (hnodup : (xs.map Prod.fst).Nodup) (hx : (key, x) ∈ xs) : xs.lookup key = some x := by
  induction xs with
  | nil => cases hx
  | cons y ys ih =>
    rw [List.map_cons, List.nodup_cons] at hnodup
    rcases List.mem_cons.1 hx with rfl | hx
    · simp
    · have hne : key ≠ y.1 := fun heq => hnodup.1 (heq ▸ List.mem_map_of_mem hx)
      rw [← ih hnodup.2 hx]
      exact (lookup_cons_eq key y.1 y.2 ys).trans (if_neg hne)

theorem boundName?_of_nodup (h : ofRecords? records = some b)
    (hnodup : ((records.filterMap Record.named?).map Prod.fst).Nodup)
    {template matched : String} {index : Nat} {path : Path}
    (hr : .boundName template matched index path ∈ records) :
    b.boundName? template = some matched := by
  rw [boundName?_of_ofRecords? h]
  exact lookup_of_nodup hnodup (List.mem_filterMap.2 ⟨_, hr, rfl⟩)

theorem exists_binding_of_value? (h : ofRecords? records = some b)
    (hvalue : b.value? pattern = some value) : ∃ path scopes,
      .binding pattern value.expr path scopes ∈ records ∧ value.depth? = some scopes.length := by
  rw [value?_of_ofRecords? h] at hvalue
  obtain ⟨before, after, heq, -⟩ := List.lookup_eq_some_iff.1 hvalue
  have hmem : (pattern, value) ∈ records.filterMap Record.bound? := by simp [heq]
  obtain ⟨r, hr, hbound⟩ := List.mem_filterMap.1 hmem
  cases r with
  | binding pattern' x path scopes =>
    obtain ⟨rfl, rfl⟩ := Prod.ext_iff.1 (Option.some.inj hbound)
    exact ⟨path, scopes, hr, rfl⟩
  | boundName template matched index path => cases hbound

/-- All values of a pattern have the text of the one that is kept. -/
theorem text_of_ofRecords? (h : ofRecords? records = some b) (hr : r ∈ records)
    (hvalue : r.bound? = some (pattern, value)) :
    ∃ found, b.value? pattern = some found ∧ found.expr.text = value.expr.text :=
  text_of_foldlM h hr hvalue

/-- The values that the records have for a pattern have the text of a value. -/
def Repeats (records : List Record) (pattern : String) (value : Expr) : Prop :=
  ∀ value' path scopes, .binding pattern value' path scopes ∈ records → value.text = value'.text

/-- All values of a pattern have one text. -/
def Consistent (records : List Record) : Prop :=
  ∀ pattern value path scopes, .binding pattern value path scopes ∈ records →
    Repeats records pattern value

theorem consistent_iff : Consistent records ↔ ∀ pattern text text',
    (pattern, text) ∈ records.filterMap Record.text? →
    (pattern, text') ∈ records.filterMap Record.text? → text = text' := by
  have hmem {pattern text : String} : (pattern, text) ∈ records.filterMap Record.text? ↔
      ∃ value path scopes, .binding pattern value path scopes ∈ records ∧ value.text = text := by
    rw [List.mem_filterMap]
    constructor
    · rintro ⟨r, hr, htext⟩
      cases r with
      | binding pattern' value path scopes =>
        obtain ⟨rfl, rfl⟩ := Prod.mk.inj (Option.some.inj htext)
        exact ⟨value, path, scopes, hr, rfl⟩
      | boundName template matched index path => cases htext
    · rintro ⟨value, path, scopes, hr, rfl⟩
      exact ⟨_, hr, rfl⟩
  constructor
  · intro h pattern text text' htext htext'
    obtain ⟨value, path, scopes, hr, rfl⟩ := hmem.1 htext
    obtain ⟨value', path', scopes', hr', rfl⟩ := hmem.1 htext'
    exact h pattern value path scopes hr value' path' scopes' hr'
  · intro h pattern value path scopes hr value' path' scopes' hr'
    exact h pattern _ _ (hmem.2 ⟨_, _, _, hr, rfl⟩) (hmem.2 ⟨_, _, _, hr', rfl⟩)

/-- Records have to agree on patterns and texts, and on nothing else. -/
theorem consistent_map_iff {g : Record → Record} (hg : ∀ r, (g r).text? = r.text?) :
    Consistent (records.map g) ↔ Consistent records := by
  have htexts : (records.map g).filterMap Record.text? = records.filterMap Record.text? := by
    rw [List.filterMap_map]
    exact congrArg (records.filterMap ·) (funext hg)
  rw [consistent_iff, consistent_iff, htexts]

theorem exists_addRecord? (h : ∀ pattern value path scopes, r = .binding pattern value path scopes →
      ∀ found, b.value? pattern = some found → found.expr.text = value.text) :
    ∃ b', b.addRecord? r = some b' := by
  cases r with
  | binding pattern value path scopes =>
    rw [addRecord?, addValue?]
    cases hfound : b.value? pattern with
    | none => exact ⟨_, rfl⟩
    | some found => exact ⟨b, if_pos (h pattern value path scopes rfl found hfound)⟩
  | boundName template matched index path => exact ⟨_, rfl⟩

/-- Bindings can be made from consistent records. -/
theorem exists_of_consistent (h : Consistent records) : ∃ b, ofRecords? records = some b := by
  suffices hfrom : ∀ b : Bindings, (∀ pattern value, b.value? pattern = some value →
      Repeats records pattern value.expr) → ∃ b', records.foldlM addRecord? b = some b' from
    hfrom empty nofun
  induction records with
  | nil => exact fun b _ => ⟨b, rfl⟩
  | cons r rs ih =>
    intro b hb
    obtain ⟨next, hnext⟩ := exists_addRecord? (b := b) (r := r) fun pattern value path scopes hr
      found hfound => hb pattern found hfound value path scopes (hr ▸ List.mem_cons_self)
    have hrest : Consistent rs := fun pattern value path scopes hr value' path' scopes' hr' =>
      h pattern value path scopes (List.mem_cons_of_mem r hr) value' path' scopes'
        (List.mem_cons_of_mem r hr')
    obtain ⟨b', hb'⟩ := ih hrest next fun pattern value hvalue value' path' scopes' hr' => by
      rw [value?_of_addRecord? hnext] at hvalue
      rcases Option.or_eq_some_iff.1 hvalue with hvalue | ⟨-, hvalue⟩
      · exact hb pattern value hvalue value' path' scopes' (List.mem_cons_of_mem r hr')
      · cases r with
        | binding pattern' found path scopes =>
          obtain ⟨rfl, rfl⟩ : pattern = pattern' ∧ value = ⟨found, some scopes.length⟩ := by
            simpa [Record.bound?, lookup_cons_eq, eq_comm] using hvalue
          exact h pattern found path scopes List.mem_cons_self value' path' scopes'
            (List.mem_cons_of_mem _ hr')
        | boundName template matched index path => cases hvalue
    exact ⟨b', by rw [List.foldlM_cons, hnext]; exact hb'⟩

/-- Bindings can be made from consistent records only. -/
theorem consistent_of_ofRecords? {b : Bindings} (h : ofRecords? records = some b) :
    Consistent records := by
  intro pattern value path scopes hr value' path' scopes' hr'
  obtain ⟨found, hfound, htext⟩ := text_of_ofRecords? h hr rfl
  obtain ⟨found', hfound', htext'⟩ := text_of_ofRecords? h hr' rfl
  obtain rfl := Option.some.inj (hfound.symm.trans hfound')
  exact htext.symm.trans htext'

end Bindings

namespace Expr

/-- The records of templates one after the other, where each with its target has the property. -/
inductive Each (p : Expr → Expr × Path → List Record → Prop) :
    List Expr → List (Expr × Path) → List Record → Prop where
  | nil : Each p [] [] []
  | cons {t : Expr} {x : Expr × Path} {first rest : List Record} {ts : List Expr}
    {xs : List (Expr × Path)} : p t x first → Each p ts xs rest →
    Each p (t :: ts) (x :: xs) (first ++ rest)

def boundRecords (names names' : List String) (path : Path) : List Record :=
  (names.zip names').zipIdx.map fun n => .boundName n.1.1 n.1.2 n.2 path

theorem agreeing_eq_some_iff {records found : List Record} :
    agreeing records = some found ↔ Bindings.Consistent records ∧ records = found := by
  constructor
  · intro h
    obtain ⟨b, hb, rfl⟩ := Option.map_eq_some_iff.1 h
    exact ⟨Bindings.consistent_of_ofRecords? hb, rfl⟩
  · rintro ⟨h, rfl⟩
    obtain ⟨b, hb⟩ := Bindings.exists_of_consistent h
    rw [agreeing, hb]
    rfl

theorem agreeing_map {g : Record → Record} (hg : ∀ r, (g r).text? = r.text?)
    (records : List Record) :
    agreeing (records.map g) = (agreeing records).map (List.map g) := by
  ext found
  simp [agreeing_eq_some_iff, Bindings.consistent_map_iff hg, and_assoc]

theorem bind_agreeing_map {g : Record → Record} (hg : ∀ r, (g r).text? = r.text?)
    (x : Option (List Record)) (bound : List Record) :
    ((x.map (List.map g)).bind fun records => agreeing (records ++ bound.map g)) =
      (x.bind fun records => agreeing (records ++ bound)).map (List.map g) := by
  rw [Option.bind_map, Option.map_bind]
  refine Option.bind_congr fun records _ => ?_
  rw [Function.comp_apply, ← List.map_append, agreeing_map hg]
  rfl

/-- Where each of the templates has the same records but for `g`, so have all of them. -/
theorem matchAll_map {f : Expr → Expr} {place : Expr × Path → Expr × Path} {g : Record → Record}
    {scopes scopes' : Scopes} {ts : List Expr}
    (h : ∀ t ∈ ts, ∀ x, (f t).matchAt (place x).1 (place x).2 scopes' =
      (t.matchAt x.1 x.2 scopes).map (List.map g)) (xs : List (Expr × Path)) :
    matchAll (ts.map f) (xs.map place) scopes' =
      (matchAll ts xs scopes).map (List.map g) := by
  induction ts generalizing xs with
  | nil => simp [matchAll]
  | cons t ts ih =>
    rw [List.forall_mem_cons] at h
    cases xs with
    | nil => simp [matchAll]
    | cons x xs =>
      rw [List.map_cons, List.map_cons, matchAll, matchAll, h.1, ih h.2]
      cases t.matchAt x.1 x.2 scopes with
      | none => rfl
      | some first =>
        cases matchAll ts xs scopes with
        | none => rfl
        | some rest => simp

theorem each_of_matchAll {p : Expr → Expr × Path → List Record → Prop} {scopes : Scopes}
    {ts : List Expr}
    (h : ∀ t ∈ ts, ∀ x records, t.matchAt x.1 x.2 scopes = some records → p t x records)
    {xs : List (Expr × Path)} (hlength : ts.length = xs.length) {records : List Record}
    (hmatch : matchAll ts xs scopes = some records) : Each p ts xs records := by
  induction ts generalizing xs records with
  | nil =>
    obtain rfl := List.length_eq_zero_iff.1 hlength.symm
    rw [matchAll] at hmatch
    · exact Option.some.inj hmatch ▸ .nil
    · rintro t ts x path xs ⟨⟩
  | cons t ts ih =>
    cases xs with
    | nil => cases hlength
    | cons x xs =>
      rw [matchAll] at hmatch
      obtain ⟨first, hfirst, hmatch⟩ := Option.bind_eq_some_iff.1 hmatch
      obtain ⟨rest, hrest, hmatch⟩ := Option.bind_eq_some_iff.1 hmatch
      rw [List.forall_mem_cons] at h
      exact Option.some.inj hmatch ▸ .cons (h.1 x first hfirst)
        (ih h.2 (Nat.succ.inj hlength) hrest)

/-- The parts of an expression at a path, each with its own path; those of a type statement have the
paths of its layout. -/
def targets (path : Path) : Expr → List (Expr × Path)
  | .typing t =>
    (t.term, path ++ t.termPath) ::
      t.components.zipIdx.map fun c => (c.1, path ++ t.componentPath c.2)
  | e => e.parts.zipIdx.map fun p => (p.1, path.child p.2)

theorem map_fst_targets (e : Expr) (path : Path) : (e.targets path).map Prod.fst = e.parts := by
  have hparts (es : List Expr) (f : Nat → Path) :
      (es.zipIdx.map fun p => (p.1, f p.2)).map Prod.fst = es := by
    simp [List.map_map, Function.comp_def]
  cases e with
  | typing t =>
    rw [targets, List.map_cons, hparts t.components fun i => path ++ t.componentPath i]
    rfl
  | _ => exact hparts _ path.child

theorem length_targets (e : Expr) (path : Path) : (e.targets path).length = e.parts.length := by
  rw [← map_fst_targets e path, List.length_map]

theorem getElem?_parts {e : Expr} {path : Path} {index : Nat} {x : Expr × Path}
    (h : (e.targets path)[index]? = some x) : e.parts[index]? = some x.1 := by
  rw [← map_fst_targets e path, List.getElem?_map, h]
  rfl

section

variable {t e : Expr} {path : Path} {scopes : Scopes} {records : List Record}

theorem matchAt_node (d d' : ExpressionDefinition) (names names' : List String)
    (parts parts' : List Expr) (path : Path) (scopes : Scopes) :
    (Expr.node (.defined d names) parts).matchAt (.node (.defined d' names') parts') path scopes =
      if d = d' ∧ parts.length = parts'.length ∧ names.length = names'.length then
        (matchAll parts ((Expr.node (.defined d' names') parts').targets path)
          ((Head.defined d' names').enter scopes)).bind fun records =>
            agreeing (records ++ boundRecords names names' path)
      else none := by
  rw [matchAt]
  rfl

theorem matchAt_typing (s s' : Typing Expr) (path : Path) (scopes : Scopes) :
    (Expr.typing s).matchAt (.typing s') path scopes =
      if s.type = s'.type ∧ s.components.length = s'.components.length then
        (matchAll (s.term :: s.components) ((Expr.typing s').targets path) scopes).bind agreeing
      else none := by
  obtain ⟨type, term, qualifier, components, attachments, conjunction⟩ := s
  rw [matchAt, targets, matchAll]
  simp only [Option.bind_eq_bind, Option.bind_assoc]
  rfl

/-- A match succeeds with a pattern, with a reference that is equal, and with a node of the same
form whose parts are matched by records that agree. -/
theorem matchAt_cases {motive : Expr → Expr → List Record → Prop}
    (pattern : ∀ name disambiguator e,
      motive (.var name disambiguator []) e [.binding name e path scopes])
    (param : ∀ level index, motive (.param level index) (.param level index) [])
    (node : ∀ d names names' parts parts' records, names.length = names'.length →
      parts.length = parts'.length →
      matchAll parts ((Expr.node (.defined d names') parts').targets path)
        ((Head.defined d names').enter scopes) = some records →
      Bindings.Consistent (records ++ boundRecords names names' path) →
      motive (.node (.defined d names) parts) (.node (.defined d names') parts')
        (records ++ boundRecords names names' path))
    (typing : ∀ (s s' : Typing Expr) records, s.type = s'.type →
      s.components.length = s'.components.length →
      matchAll (s.term :: s.components) ((Expr.typing s').targets path) scopes = some records →
      Bindings.Consistent records → motive (.typing s) (.typing s') records)
    (h : t.matchAt e path scopes = some records) : motive t e records := by
  cases t with
  | var name disambiguator arguments =>
    cases arguments with
    | nil =>
      rw [matchAt] at h
      exact Option.some.inj h ▸ pattern name disambiguator e
    | cons a as => simp [matchAt] at h
  | param level index =>
    cases e with
    | param level' index' =>
      rw [matchAt] at h
      split at h
      · next heq =>
        obtain ⟨rfl, rfl⟩ := heq
        exact Option.some.inj h ▸ param level index
      · cases h
    | _ => simp [matchAt] at h
  | node head parts =>
    cases head with
    | defined d names =>
      cases e with
      | node head' parts' =>
        cases head' with
        | defined d' names' =>
          rw [matchAt_node] at h
          split at h
          · next heq =>
            obtain ⟨rfl, hparts, hnames⟩ := heq
            obtain ⟨found, hfound, h⟩ := Option.bind_eq_some_iff.1 h
            obtain ⟨hconsistent, rfl⟩ := agreeing_eq_some_iff.1 h
            exact node d names names' parts parts' found hnames hparts hfound hconsistent
          · cases h
        | _ => simp [matchAt] at h
      | _ => simp [matchAt] at h
    | _ => simp [matchAt] at h
  | typing s =>
    cases e with
    | typing s' =>
      rw [matchAt_typing] at h
      split at h
      · next heq =>
        obtain ⟨found, hfound, h⟩ := Option.bind_eq_some_iff.1 h
        obtain ⟨hconsistent, rfl⟩ := agreeing_eq_some_iff.1 h
        exact typing s s' found heq.1 heq.2 hfound hconsistent
      · cases h
    | _ => simp [matchAt] at h

theorem consistent_of_matchAt (h : t.matchAt e path scopes = some records) :
    Bindings.Consistent records := by
  refine matchAt_cases (motive := fun _ _ records => Bindings.Consistent records) ?_ ?_ ?_ ?_ h
  · intro name disambiguator e pattern value path' scopes' hr value' path'' scopes'' hr'
    obtain ⟨-, rfl, -, -⟩ := Record.binding.inj (List.mem_singleton.1 hr)
    obtain ⟨-, rfl, -, -⟩ := Record.binding.inj (List.mem_singleton.1 hr')
    rfl
  · intro level index pattern value path' scopes' hr
    cases hr
  · exact fun _ _ _ _ _ _ _ _ _ hconsistent => hconsistent
  · exact fun _ _ _ _ _ _ hconsistent => hconsistent

theorem exists_ofRecords? (h : t.matchAt e path scopes = some records) :
    ∃ b, Bindings.ofRecords? records = some b :=
  Bindings.exists_of_consistent (consistent_of_matchAt h)

end

/-- What holds of a pattern with anything, of equal references, and of two nodes if it holds of
their parts, holds of every match that succeeds. -/
theorem matchAt_induct {motive : Expr → Expr → Path → Scopes → List Record → Prop}
    (pattern : ∀ name disambiguator e path scopes,
      motive (.var name disambiguator []) e path scopes [.binding name e path scopes])
    (param : ∀ level index path scopes,
      motive (.param level index) (.param level index) path scopes [])
    (node : ∀ d names names' parts parts' path scopes records, names.length = names'.length →
      Each (fun t x => motive t x.1 x.2 ((Head.defined d names').enter scopes)) parts
        ((Expr.node (.defined d names') parts').targets path) records →
      motive (.node (.defined d names) parts) (.node (.defined d names') parts') path scopes
        (records ++ boundRecords names names' path))
    (typing : ∀ (s s' : Typing Expr) path scopes records, s.type = s'.type →
      Each (fun t x => motive t x.1 x.2 scopes) (s.term :: s.components)
        ((Expr.typing s').targets path) records →
      motive (.typing s) (.typing s') path scopes records)
    {t e : Expr} {path : Path} {scopes : Scopes} {records : List Record}
    (h : t.matchAt e path scopes = some records) : motive t e path scopes records := by
  induction t using induct_children generalizing e path scopes records with
  | step t ih =>
    refine matchAt_cases (motive := fun t e records =>
      (∀ c ∈ t.children, ∀ {e path scopes records}, c.matchAt e path scopes = some records →
        motive c e path scopes records) → motive t e path scopes records) ?_ ?_ ?_ ?_ h ih
    · exact fun name disambiguator e _ => pattern name disambiguator e path scopes
    · exact fun level index _ => param level index path scopes
    · intro d names names' parts parts' records hnames hparts hrecords _ ih
      have hlength := hparts.trans (length_targets (.node (.defined d names') parts') path).symm
      refine node d names names' parts parts' path scopes records hnames ?_
      exact each_of_matchAll (fun t ht x records => ih t ht) hlength hrecords
    · intro s s' records htype hcomponents hrecords _ ih
      have hlength := (congrArg Nat.succ hcomponents).trans (length_targets (.typing s') path).symm
      refine typing s s' path scopes records htype ?_
      exact each_of_matchAll (fun t ht x records => ih t ((Expr.typing s).parts_subset_children ht))
        hlength hrecords

section

variable {t e : Expr} {path : Path} {scopes : Scopes} {records : List Record}

theorem Each.exists_of_mem {p : Expr → Expr × Path → List Record → Prop} {ts : List Expr}
    {xs : List (Expr × Path)} (h : Each p ts xs records) {r : Record} (hr : r ∈ records) :
    ∃ (index : Nat) (t : Expr) (x : Expr × Path) (rs : List Record), ts[index]? = some t ∧
      xs[index]? = some x ∧ r ∈ rs ∧ p t x rs := by
  induction h with
  | nil => cases hr
  | cons ht _ ih =>
    rcases List.mem_append.1 hr with hr | hr
    · exact ⟨0, _, _, _, rfl, rfl, hr, ht⟩
    · obtain ⟨index, t, x, rs, hfound⟩ := ih hr
      exact ⟨index + 1, t, x, rs, hfound⟩

theorem Each.mono {p q : Expr → Expr × Path → List Record → Prop} {ts : List Expr}
    {xs : List (Expr × Path)} (h : Each p ts xs records)
    (hpq : ∀ t ∈ ts, ∀ x rs, p t x rs → q t x rs) : Each q ts xs records := by
  induction h with
  | nil => exact .nil
  | cons ht _ ih =>
    rw [List.forall_mem_cons] at hpq
    exact .cons (hpq.1 _ _ ht) (ih hpq.2)

/-- If the names that are recorded for each template compare with something of the template, then so
do those that are recorded for all of them, in a row. -/
theorem Each.flatMap {α : Type} {r : List String → List String → Prop} (hnil : r [] [])
    (happend : ∀ {as bs cs ds : List String}, r as bs → r cs ds → r (as ++ cs) (bs ++ ds))
    {f : Record → Option (String × α)} {g : Expr → List String} {ts : List Expr}
    {xs : List (Expr × Path)}
    (h : Each (fun t _ rs => r ((rs.filterMap f).map Prod.fst) (g t)) ts xs records) :
    r ((records.filterMap f).map Prod.fst) (ts.flatMap g) := by
  induction h with
  | nil => exact hnil
  | cons ht _ ih =>
    rw [List.filterMap_append, List.map_append, List.flatMap_cons]
    exact happend ht ih

def Placed (t e : Expr) (scopes : Scopes) (records : List Record) : Prop :=
  ∀ pattern value path scopes', .binding pattern value path scopes' ∈ records →
    ∃ inner disambiguator, Facing parts t e inner (.var pattern disambiguator []) value ∧
      scopes'.length = scopes.length + inner.length

theorem placed_of_each {inner : Scopes} (hinner : inner.length = t.depthInside scopes.length)
    (h : Each (fun t x => Placed t x.1 inner) t.parts (e.targets path) records) :
    Placed t e scopes records := by
  intro pattern value path' scopes' hr
  obtain ⟨index, a, x, rs, ha, hx, hr, hplaced⟩ := h.exists_of_mem hr
  obtain ⟨deeper, disambiguator, hfacing, hlength⟩ := hplaced pattern value path' scopes' hr
  refine ⟨_, disambiguator, .child index ha (getElem?_parts hx) hfacing, ?_⟩
  rw [hlength, hinner, add_length_scope_append]

theorem not_mem_boundRecords {names names' : List String} {pattern : String} {value : Expr}
    {path' : Path} {scopes' : Scopes} :
    .binding pattern value path' scopes' ∉ boundRecords names names' path := by
  simp [boundRecords]

theorem exists_mem_boundRecords {names names' : List String} {p : String × String}
    (hp : p ∈ names.zip names') (path : Path) :
    ∃ index, .boundName p.1 p.2 index path ∈ boundRecords names names' path := by
  obtain ⟨index, hlt, rfl⟩ := List.getElem_of_mem hp
  refine ⟨index, List.mem_map.2 ⟨((names.zip names')[index], index), ?_, rfl⟩⟩
  exact List.mk_mem_zipIdx_iff_getElem?.2 (List.getElem?_eq_getElem hlt)

theorem placed_of_matchAt (h : t.matchAt e path scopes = some records) :
    Placed t e scopes records := by
  apply matchAt_induct (motive := fun t e _ scopes records => Placed t e scopes records)
    ?_ ?_ ?_ ?_ h
  · intro name disambiguator e path scopes pattern value path' scopes' hr
    obtain ⟨rfl, rfl, rfl, rfl⟩ := by simpa using hr
    exact ⟨[], disambiguator, .root _ _, rfl⟩
  · intro level index path scopes pattern value path' scopes' hr
    cases hr
  · intro d names names' parts parts' path scopes records hnames heach
    have hparts : Placed (.node (.defined d names) parts) (.node (.defined d names') parts') scopes
        records := placed_of_each (Head.length_enter_defined hnames scopes) heach
    intro pattern value path' scopes' hr
    rcases List.mem_append.1 hr with hr | hr
    · exact hparts pattern value path' scopes' hr
    · exact absurd hr not_mem_boundRecords
  · intro t t' path scopes records htype heach
    exact placed_of_each rfl heach

/-- The value that a match gives to a pattern stands opposite to one of its places, and was found
under as many binders. -/
theorem exists_facing_of_value? {b : Bindings} {pattern : String} {value : Value}
    (h : t.matchWhole e = some records) (hb : Bindings.ofRecords? records = some b)
    (hvalue : b.value? pattern = some value) : ∃ scopes disambiguator,
      Facing parts t e scopes (.var pattern disambiguator []) value.expr ∧
        value.depth? = some scopes.length := by
  obtain ⟨path, scopes, hr, hdepth⟩ := Bindings.exists_binding_of_value? hb hvalue
  obtain ⟨inner, disambiguator, hfacing, hlength⟩ := placed_of_matchAt h _ _ _ _ hr
  rw [List.length_nil, Nat.zero_add] at hlength
  exact ⟨inner, disambiguator, hfacing, hlength ▸ hdepth⟩

theorem named_boundRecords {names names' : List String} (h : names.length = names'.length)
    (path : Path) :
    ((boundRecords names names' path).filterMap Record.named?).map Prod.fst = names := by
  simpa [boundRecords, List.filterMap_map, Function.comp_def, Record.named?]
    using List.map_fst_zip (Nat.le_of_eq h)

/-- A match names the bound variables of the template from left to right. -/
theorem sublist_boundNames_of_matchAt (h : t.matchAt e path scopes = some records) :
    ((records.filterMap Record.named?).map Prod.fst).Sublist t.boundNames := by
  apply matchAt_induct (motive := fun t _ _ _ records =>
    ((records.filterMap Record.named?).map Prod.fst).Sublist t.boundNames) ?_ ?_ ?_ ?_ h
  · intro name disambiguator e path scopes
    exact List.nil_sublist _
  · intro level index path scopes
    exact List.nil_sublist _
  · intro d names names' parts parts' path scopes records hnames h
    rw [List.filterMap_append, List.map_append, named_boundRecords hnames, boundNames_eq]
    exact (h.flatMap .slnil List.Sublist.append).append_right names
  · intro s s' path scopes records htype h
    obtain ⟨owns, howns⟩ := (Expr.typing s).parts_prefix_children
    rw [boundNames_eq, ← howns, List.flatMap_append, List.append_assoc]
    exact (h.flatMap .slnil List.Sublist.append).trans (List.sublist_append_left _ _)

end

end Expr

end Formulary
