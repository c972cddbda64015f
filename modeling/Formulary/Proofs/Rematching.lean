import Formulary.Proofs.Patterns

/-! # Matching an instance again

An instance has the form of its template, so the template matches it, provided that everything in
the template is matched by its form and all copies of a pattern have one text. The records then have
the copies, and the names that the instance has for what the template binds. -/

namespace Formulary

namespace Expr

variable {b : Bindings} {t e new : Expr} {depth : Nat} {path : Path} {scopes inner : Scopes}
  {records : List Record}

/-- What a match finds by its form: patterns, definitions with parts, references, and statements
with nothing folded into them. -/
def IsSimple : Expr → Prop
  | .var _ _ arguments => arguments = []
  | .param .. => True
  | .node head _ => head.kind = .defined
  | .typing t => t.isFolded = false

theorem IsSimple.hasNoOwnTerms (h : IsSimple t) : HasNoOwnTerms t := by
  cases t with
  | typing t =>
    have hattachments : t.attachments = [] := by
      simp only [IsSimple, Typing.isFolded, Bool.or_eq_false_iff] at h
      simpa using h.2
    rw [HasNoOwnTerms, hattachments]
    rfl
  | _ => trivial

def SameCopies (t e : Expr) : Prop :=
  ∀ name scopes scopes' disambiguator disambiguator' x y,
    Facing parts t e scopes (.var name disambiguator []) x →
      Facing parts t e scopes' (.var name disambiguator' []) y → x.text = y.text

theorem SameCopies.child (h : SameCopies t e) {index : Nat} {x y : Expr}
    (hx : t.parts[index]? = some x) (hy : e.parts[index]? = some y) : SameCopies x y :=
  fun _ _ _ _ _ _ _ hfirst hsecond =>
    h _ _ _ _ _ _ _ (.child index hx hy hfirst) (.child index hx hy hsecond)

theorem consistent_of_placed (h : SameCopies t e) (hplaced : Placed t e scopes records) :
    Bindings.Consistent records := by
  intro pattern value path scopes hr value' path' scopes' hr'
  obtain ⟨inner, disambiguator, hfacing, -⟩ := hplaced _ _ _ _ hr
  obtain ⟨inner', disambiguator', hfacing', -⟩ := hplaced _ _ _ _ hr'
  exact h _ _ _ _ _ _ _ hfacing hfacing'

theorem exists_matchAll {ts : List Expr} {xs : List (Expr × Path)} (hlength : ts.length = xs.length)
    (h : ∀ (index : Nat) t x, ts[index]? = some t → xs[index]? = some x →
      ∃ records, t.matchAt x.1 x.2 scopes = some records) :
    ∃ records, matchAll ts xs scopes = some records := by
  induction ts generalizing xs with
  | nil => exact ⟨[], by simp [matchAll]⟩
  | cons t ts ih =>
    cases xs with
    | nil => cases hlength
    | cons x xs =>
      obtain ⟨first, hfirst⟩ := h 0 t x rfl rfl
      obtain ⟨rest, hrest⟩ :=
        ih (Nat.succ.inj hlength) fun index t x ht hx => h (index + 1) t x ht hx
      exact ⟨first ++ rest, by rw [matchAll, hfirst, hrest]; rfl⟩

/-- If the parts of a node match one by one, their records are consistent. -/
theorem exists_matchAll_parts (hlength : t.parts.length = e.parts.length)
    (hinner : inner.length = t.depthInside scopes.length) (hsame : SameCopies t e)
    (h : ∀ (index : Nat) x y, t.parts[index]? = some x → e.parts[index]? = some y →
      ∀ path, ∃ records, x.matchAt y path inner = some records) (path : Path) :
    ∃ records, matchAll t.parts (e.targets path) inner = some records ∧
      Bindings.Consistent records := by
  have hlength' := hlength.trans (length_targets e path).symm
  obtain ⟨records, hrecords⟩ : ∃ records, matchAll t.parts (e.targets path) inner = some records :=
    exists_matchAll hlength' fun index x y hx hy => h index x y.1 hx (getElem?_parts hy) y.2
  have heach := each_of_matchAll (p := fun t x records => Placed t x.1 inner records)
    (fun _ _ _ _ => placed_of_matchAt) hlength' hrecords
  exact ⟨records, hrecords, consistent_of_placed hsame (placed_of_each hinner heach)⟩

theorem exists_matchAt_node {d : ExpressionDefinition} {names names' : List String}
    {parts parts' : List Expr} (hnames : names.length = names'.length)
    (hlength : parts.length = parts'.length)
    (hsame : SameCopies (.node (.defined d names) parts) (.node (.defined d names') parts'))
    (h : ∀ (index : Nat) x y, parts[index]? = some x → parts'[index]? = some y →
      ∀ path, ∃ records,
        x.matchAt y path ((Head.defined d names').enter scopes) = some records) :
    ∃ records, (Expr.node (.defined d names) parts).matchAt (.node (.defined d names') parts') path
      scopes = some records := by
  obtain ⟨records, hrecords, hconsistent⟩ := exists_matchAll_parts
    (t := .node (.defined d names) parts) (e := .node (.defined d names') parts') hlength
    (Head.length_enter_defined hnames scopes) hsame h path
  have hbound : Bindings.Consistent (records ++ boundRecords names names' path) := by
    intro pattern value path' scopes' hr value' path'' scopes'' hr'
    exact hconsistent pattern value path' scopes'
      ((List.mem_append.1 hr).resolve_right not_mem_boundRecords) value' path'' scopes''
      ((List.mem_append.1 hr').resolve_right not_mem_boundRecords)
  refine ⟨records ++ boundRecords names names' path, ?_⟩
  rw [matchAt_node, if_pos ⟨rfl, hlength, hnames⟩]
  exact Option.bind_eq_some_iff.2 ⟨records, hrecords, agreeing_eq_some_iff.2 ⟨hbound, rfl⟩⟩

theorem exists_matchAt_typing {s s' : Typing Expr} (htype : s.type = s'.type)
    (hlength : s.components.length = s'.components.length)
    (hsame : SameCopies (.typing s) (.typing s'))
    (h : ∀ (index : Nat) x y, (Expr.typing s).parts[index]? = some x →
      (Expr.typing s').parts[index]? = some y → ∀ path, ∃ records,
        x.matchAt y path scopes = some records) :
    ∃ records, (Expr.typing s).matchAt (.typing s') path scopes = some records := by
  obtain ⟨records, hrecords, hconsistent⟩ := exists_matchAll_parts (t := .typing s)
    (e := .typing s') (congrArg Nat.succ hlength) rfl hsame h path
  refine ⟨records, ?_⟩
  rw [matchAt_typing, if_pos ⟨htype, hlength⟩]
  exact Option.bind_eq_some_iff.2 ⟨records, hrecords, agreeing_eq_some_iff.2 ⟨hconsistent, rfl⟩⟩

/-- The parts of an instance are instances of the parts. -/
theorem exists_walk_of_parts (h : t.walk b.applyWalk depth = .ok e) {index : Nat} {x y : Expr}
    (hx : t.parts[index]? = some x) (hy : e.parts[index]? = some y) :
    ∃ depth, x.walk b.applyWalk depth = .ok y :=
  ⟨_, gives_of_facing (.except EditError) (Facing.child index hx hy (.root x y)).of_parts h⟩

/-- A simple template matches its instance. -/
theorem exists_matchAt (ht : t.Everywhere IsSimple) (h : t.walk b.applyWalk depth = .ok e)
    (hsame : SameCopies t e) (path : Path) (scopes : Scopes) :
    ∃ records, t.matchAt e path scopes = some records := by
  induction t using induct generalizing e depth path scopes with
  | var name disambiguator arguments ih =>
    obtain rfl : arguments = [] := ht.root
    exact ⟨_, by rw [matchAt]⟩
  | param level index =>
    obtain rfl := Except.ok.inj h
    exact ⟨[], by simp [matchAt]⟩
  | node head parts ih =>
    cases head with
    | defined d names =>
      have hwalk := h
      rw [walk_node] at h
      obtain ⟨ys, hys, rfl⟩ := (Outcome.except EditError).map h
      have hlength := ((Outcome.except EditError).mapM hys).length_eq
      rw [List.length_map] at hlength
      apply exists_matchAt_node (by simp) hlength hsame
      intro index x y hx hy path
      have hmem := List.mem_of_getElem? hx
      obtain ⟨depth, hxy⟩ := exists_walk_of_parts hwalk hx hy
      exact ih x hmem (ht.of_mem hmem) hxy (hsame.child hx hy) path _
    | _ => cases ht.root
  | typing s ih =>
    have hwalk := h
    rw [walk_typing, Typing.mapM_map] at h
    obtain ⟨s', hs', rfl⟩ := (Outcome.except EditError).map h
    obtain ⟨hform, -⟩ := (Outcome.except EditError).typing hs'
    have hlength := congrArg (fun s => s.components.length) hform
    simp only [Typing.map, List.length_map] at hlength
    apply exists_matchAt_typing (congrArg Typing.type hform).symm hlength.symm hsame
    intro index x y hx hy path
    have hmem := (Expr.typing s).parts_subset_children (List.mem_of_getElem? hx)
    obtain ⟨depth, hxy⟩ := exists_walk_of_parts hwalk hx hy
    exact ih x hmem (ht.of_mem hmem) hxy (hsame.child hx hy) path scopes

/-- The names of the binders of a template are recorded in the order of the binders. -/
theorem named_of_matchAt (ht : t.Everywhere HasNoOwnTerms)
    (h : t.matchAt e path scopes = some records) :
    (records.filterMap Record.named?).map Prod.fst = t.boundNames := by
  apply matchAt_induct (motive := fun t _ _ _ records => t.Everywhere HasNoOwnTerms →
    (records.filterMap Record.named?).map Prod.fst = t.boundNames) ?_ ?_ ?_ ?_ h ht
  · intro name disambiguator e path scopes _
    rfl
  · intro level index path scopes _
    rfl
  · intro d names names' parts parts' path scopes records hnames h ht
    have hparts := h.mono fun t hmem _ _ hnamed => hnamed (ht.of_mem hmem)
    rw [List.filterMap_append, List.map_append, named_boundRecords hnames,
      hparts.flatMap rfl (congrArg₂ _), boundNames_eq]
    rfl
  · intro s s' path scopes records htype h ht
    have hchildren : s.term :: s.components = s.children := ht.root.children_eq_parts.symm
    rw [hchildren] at h
    have hparts := h.mono fun t hmem _ _ hnamed => hnamed (ht.of_mem hmem)
    rw [hparts.flatMap rfl (congrArg₂ _), boundNames_eq]
    exact (List.append_nil _).symm

theorem eq_boundName_of_matchAt (hwalk : t.walk b.applyWalk depth = .ok e)
    (h : t.matchAt e path scopes = some records) {template matched : String} {index : Nat}
    {path' : Path} (hr : .boundName template matched index path' ∈ records) :
    matched = b.applyWalk.boundName template := by
  have heach {t e : Expr} {depth : Nat} {path : Path} {records : List Record}
      (hwalk : t.walk b.applyWalk depth = .ok e)
      (h : Each (fun t x records => ∀ depth, t.walk b.applyWalk depth = .ok x.1 →
        ∀ r ∈ records, ∀ p ∈ r.named?, p.2 = b.applyWalk.boundName p.1) t.parts (e.targets path)
          records) :
      ∀ r ∈ records, ∀ p ∈ r.named?, p.2 = b.applyWalk.boundName p.1 := by
    intro r hr
    obtain ⟨index, a, x, rs, ha, hx, hr, hnamed⟩ := h.exists_of_mem hr
    obtain ⟨depth, hax⟩ := exists_walk_of_parts hwalk ha (getElem?_parts hx)
    exact hnamed depth hax r hr
  refine matchAt_induct (motive := fun t e _ _ records => ∀ depth, t.walk b.applyWalk depth = .ok e →
    ∀ r ∈ records, ∀ p ∈ r.named?, p.2 = b.applyWalk.boundName p.1) ?_ ?_ ?_ ?_ h depth hwalk _ hr
      (template, matched) rfl
  · intro name disambiguator e path scopes depth _ r hr p hp
    obtain rfl := List.mem_singleton.1 hr
    cases hp
  · intro level index path scopes depth _ r hr
    cases hr
  · intro d names names' parts parts' path scopes records hnames h depth hwalk r hr
    rcases List.mem_append.1 hr with hr | hr
    · exact heach hwalk h r hr
    · rw [walk_node] at hwalk
      obtain ⟨ys, -, heq⟩ := (Outcome.except EditError).map hwalk
      obtain ⟨hhead, -⟩ := node.inj heq
      obtain ⟨-, rfl⟩ := Head.defined.inj hhead
      obtain ⟨n, hn, rfl⟩ := List.mem_map.1 hr
      have hzip := List.fst_mem_of_mem_zipIdx hn
      rw [← List.map_prod_left_eq_zip] at hzip
      obtain ⟨name, -, hname⟩ := List.mem_map.1 hzip
      intro p hp
      obtain rfl : n.1 = p := Option.some.inj hp
      rw [← hname]
  · intro s s' path scopes records htype h depth hwalk
    exact heach hwalk h

end Expr

end Formulary
