import Formulary.Match.Rule
import Formulary.Proofs.Records
import Formulary.Proofs.Walks

/-! # Rules over writable expressions

The values that a match records are parts of the expression matched, and the names are names that
it binds. So the bindings made from a match of a writable expression put only what can be written
into a template, and applying a rule with writable sides gives a writable expression. -/

namespace Formulary

theorem Rule.exists_of_applyAt {r : Rule} {e : Expr} {path : Path} {edited : Edited}
    (h : r.applyAt e path = .ok (some edited)) : ∃ target records b new,
      e.part path = .ok target ∧ r.left.matchWhole target = some records ∧
        Bindings.ofRecords? records = some b ∧ b.apply r.right = .ok new ∧
          e.replace path new = .ok edited := by
  rw [applyAt] at h
  obtain ⟨target, htarget, h⟩ := (Outcome.except EditError).bind h
  split at h
  · cases h
  · next b hb =>
    obtain ⟨records, hrecords, hb⟩ := Option.bind_eq_some_iff.1 hb
    obtain ⟨new, hnew, h⟩ := (Outcome.except EditError).bind h
    obtain ⟨found, hfound, h⟩ := (Outcome.except EditError).bind h
    obtain rfl := Option.some.inj (Except.ok.inj h)
    exact ⟨target, records, b, new, htarget, hrecords, hb, hnew, hfound⟩

/-- An instance is made of the nodes of the template, with other bound names, and those of the
values. -/
theorem Bindings.everywhere_of_apply {p : Expr → Prop} (hp : Expr.Formal p) (b : Bindings)
    (hvalues : ∀ pattern value, b.value? pattern = some value → value.expr.Everywhere p)
    (hname : ∀ head parts, p (.node head parts) →
      p (.node (head.mapBoundNames b.applyWalk.boundName) parts))
    {template e : Expr} (htemplate : template.Everywhere p) (h : b.apply template = .ok e) :
    e.Everywhere p := by
  apply Expr.everywhere_of_walk hp (.except EditError) ?_ ?_ hname htemplate h
  · intro depth name disambiguator x hvar hx
    simp only [Outcome.except, applyWalk] at hx
    split at hx
    · exact Except.ok.inj hx ▸ Expr.Everywhere.leaf_iff.2 hvar
    · next value hvalue =>
      split at hx
      · next shifted hshifted =>
        exact Except.ok.inj hx ▸ Expr.everywhere_of_shift? hp (hvalues name value hvalue) hshifted
      · cases hx
  · intro depth level index x hparam hx
    exact Except.ok.inj hx ▸ Expr.Everywhere.param_iff.2 hparam

namespace Vocabulary

variable {v : Vocabulary} {e : Expr}

def WritableRecord (v : Vocabulary) : Record → Prop
  | .binding _ value _ _ => v.Writable value
  | .boundName _ matched _ _ => Text.isWord matched = true

structure WritableBindings (v : Vocabulary) (b : Bindings) : Prop where
  values : ∀ p ∈ b.values, v.Writable p.2.expr
  boundNames : ∀ p ∈ b.boundNames, Text.isWord p.2 = true

theorem writableRecord_of_each {ts : List Expr} {path : Path} {records : List Record}
    (he : v.Writable e)
    (h : Expr.Each (fun _ x records => v.Writable x.1 → ∀ r ∈ records, v.WritableRecord r)
      ts (e.targets path) records) : ∀ r ∈ records, v.WritableRecord r := by
  intro r hr
  obtain ⟨index, t, x, rs, -, hx, hr, hwritable⟩ := h.exists_of_mem hr
  have hmem := List.mem_of_getElem? (Expr.getElem?_parts hx)
  exact hwritable (he.of_mem (e.parts_subset_children hmem)) r hr

/-- Whatever the template is, its records bring what can be written. -/
theorem writableRecord_of_matchAt {t : Expr} {path : Path} {scopes : Scopes}
    {records : List Record} (he : v.Writable e) (h : t.matchAt e path scopes = some records) :
    ∀ r ∈ records, v.WritableRecord r := by
  apply Expr.matchAt_induct (motive := fun _ e _ _ records =>
    v.Writable e → ∀ r ∈ records, v.WritableRecord r) ?_ ?_ ?_ ?_ h he
  · intro name disambiguator e path scopes he
    simpa [WritableRecord] using he
  · intro level index path scopes he
    simp
  · intro d names names' parts parts' path scopes records hnames heach he r hr
    rcases List.mem_append.1 hr with hr | hr
    · exact writableRecord_of_each he heach r hr
    · obtain ⟨n, hn, rfl⟩ := List.mem_map.1 hr
      have hname := (List.of_mem_zip (List.fst_mem_of_mem_zipIdx hn)).2
      exact he.legible.root.1.2.2 _ hname
  · intro t t' path scopes records htype heach he
    exact writableRecord_of_each he heach

theorem WritableBindings.addRecord? {b b' : Bindings} (hb : v.WritableBindings b) {r : Record}
    (hr : v.WritableRecord r) (h : b.addRecord? r = some b') : v.WritableBindings b' := by
  rcases Bindings.addRecord?_cases h with ⟨pattern, value, path, scopes, rfl, ⟨-, rfl⟩ |
      ⟨-, -, -, rfl⟩⟩ | ⟨template, matched, index, path, rfl, ⟨-, rfl⟩ | ⟨-, -, rfl⟩⟩
  · exact ⟨List.forall_mem_cons.2 ⟨hr, hb.values⟩, hb.boundNames⟩
  · exact hb
  · exact ⟨hb.values, List.forall_mem_cons.2 ⟨hr, hb.boundNames⟩⟩
  · exact hb

theorem WritableBindings.foldlM {b b' : Bindings} (hb : v.WritableBindings b)
    {records : List Record} (hrecords : ∀ r ∈ records, v.WritableRecord r)
    (h : records.foldlM Bindings.addRecord? b = some b') : v.WritableBindings b' := by
  induction records generalizing b with
  | nil =>
    rw [List.foldlM_nil] at h
    exact Option.some.inj h ▸ hb
  | cons r rs ih =>
    rw [List.foldlM_cons] at h
    obtain ⟨next, hnext, h⟩ := Option.bind_eq_some_iff.1 h
    rw [List.forall_mem_cons] at hrecords
    exact ih (hb.addRecord? hrecords.1 hnext) hrecords.2 h

theorem writableBindings_empty : v.WritableBindings .empty :=
  ⟨by simp [Bindings.empty], by simp [Bindings.empty]⟩

theorem mem_of_lookup {α : Type} {key : String} {x : α} {xs : List (String × α)}
    (h : xs.lookup key = some x) : (key, x) ∈ xs := by
  obtain ⟨before, after, rfl, -⟩ := List.lookup_eq_some_iff.1 h
  simp

theorem writable_of_apply {b : Bindings} (hb : v.WritableBindings b) {template : Expr}
    (htemplate : v.Writable template) (h : b.apply template = .ok e) : v.Writable e := by
  rw [writable_iff_everywhere] at htemplate ⊢
  apply b.everywhere_of_apply v.formal_writable ?_ ?_ htemplate h
  · intro pattern value hvalue
    exact writable_iff_everywhere.1 (hb.values _ (mem_of_lookup hvalue))
  · rintro head parts ⟨⟨hhead, hcount⟩, -⟩
    refine ⟨⟨opens_mapBoundNames hhead fun name hname => ?_, ?_⟩, by simp [Expr.pattern?]⟩
    · simp only [Bindings.applyWalk]
      cases hfound : b.boundName? name with
      | none => exact hname
      | some matched => exact hb.boundNames _ (mem_of_lookup hfound)
    · rw [partCount_mapBoundNames, hcount]

theorem writable_of_applyAt {r : Rule} (hright : v.Writable r.right) {path : Path}
    {edited : Edited} (he : v.Writable e) (h : r.applyAt e path = .ok (some edited)) :
    v.Writable edited.expr := by
  obtain ⟨target, records, b, new, hpart, hmatch, hb, hnew, hreplace⟩ := r.exists_of_applyAt h
  have hrecords := writableRecord_of_matchAt (writable_of_partFrom he hpart) hmatch
  have hbindings := writableBindings_empty.foldlM hrecords hb
  exact writable_of_replace (writable_of_apply hbindings hright hnew) hreplace he

end Vocabulary

end Formulary
