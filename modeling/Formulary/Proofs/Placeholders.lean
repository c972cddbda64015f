import Formulary.Proofs.Cutting

/-! # Placeholders of a format

A display format is read by a grammar that accepts every text. What it takes for placeholders are
all the names in braces that the format has, and everything else is text. The segments one after
another are the format again, and to render it is to replace the names that have a value. -/

namespace Formulary

open Text (Cursor Recognizer byteLength)

namespace DisplayFormat

/-- A name is not empty and has no braces. -/
def IsName (name : List Char) : Prop := name ≠ [] ∧ ∀ c ∈ name, c ≠ '{' ∧ c ≠ '}'

section

variable {c : Char} {cs name rest : List Char}

theorem isBrace_eq_false : isBrace c = false ↔ c ≠ '{' ∧ c ≠ '}' := by
  simp [isBrace]

theorem isOpening_eq_false : isOpening c = false ↔ c ≠ '{' := by
  simp [isOpening]

theorem IsName.not_isOpening (h : IsName name) : ∀ c ∈ name ++ ['}'], isOpening c = false := by
  simpa [isOpening, or_imp, forall_and] using fun c hc => (h.2 c hc).1

theorem name?_eq_some :
    name? cs = some (name, rest) ↔ IsName name ∧ cs = name ++ '}' :: rest := by
  constructor
  · intro h
    have hsplit := List.takeWhile_append_dropWhile (p := (!isBrace ·)) (l := cs)
    unfold name? at h
    split at h
    · next c name rest htake hdrop =>
      obtain ⟨rfl, rfl⟩ := Prod.mk.inj (Option.some.inj h)
      rw [htake, hdrop] at hsplit
      refine ⟨⟨List.cons_ne_nil c name, fun d hd => isBrace_eq_false.1 ?_⟩, hsplit.symm⟩
      rw [← htake] at hd
      simpa using List.mem_takeWhile_imp hd
    · cases h
  · rintro ⟨⟨hne, hname⟩, rfl⟩
    have hrun : ∀ c ∈ name, (!isBrace c) = true := fun c hc => by
      simp [isBrace_eq_false.2 (hname c hc)]
    have hclosing : ∀ c ∈ ('}' :: rest).head?, (!isBrace c) = false := by simp [isBrace]
    obtain ⟨c, name, rfl⟩ := List.exists_cons_of_ne_nil hne
    rw [name?, Text.takeWhile_append_run hrun hclosing, Text.dropWhile_append_run hrun hclosing]
    rfl

end

/-- Segments as they are cut from a text: names in braces, opening braces with no such name, and
runs of text up to the next opening brace. -/
inductive Cut : List Char → List Segment → Prop where
  | nil : Cut [] []
  | placeholder {name rest : List Char} {segments : List Segment} : IsName name →
    Cut rest segments →
    Cut ('{' :: (name ++ '}' :: rest)) (.placeholder (String.ofList name) :: segments)
  | lone {rest : List Char} {segments : List Segment} : name? rest = none → Cut rest segments →
    Cut ('{' :: rest) (.text "\x7b" :: segments)
  | run {run rest : List Char} {segments : List Segment} : run ≠ [] →
    (∀ c ∈ run, isOpening c = false) → (∀ c ∈ rest.head?, isOpening c = true) →
    Cut rest segments → Cut (run ++ rest) (.text (String.ofList run) :: segments)

theorem cut_segmentsOf (cs : List Char) : Cut cs (segmentsOf cs) := by
  fun_induction segmentsOf cs with
  | case1 => exact .nil
  | case2 c cs hc name rest h _ ih =>
    obtain rfl : c = '{' := by simpa [isOpening] using hc
    obtain ⟨hname, rfl⟩ := name?_eq_some.1 h
    exact .placeholder hname ih
  | case3 c cs hc hname ih =>
    obtain rfl : c = '{' := by simpa [isOpening] using hc
    exact .lone hname ih
  | case4 c cs hc _ ih =>
    have hrun : ∀ d ∈ c :: cs.takeWhile (!isOpening ·), isOpening d = false := by
      refine List.forall_mem_cons.2 ⟨Bool.eq_false_iff.2 hc, fun d hd => ?_⟩
      simpa using List.mem_takeWhile_imp hd
    have hnext : ∀ d ∈ (cs.dropWhile (!isOpening ·)).head?, isOpening d = true := by
      simpa using Text.head?_dropWhile (p := (!isOpening ·)) cs
    have hcut := Cut.run (List.cons_ne_nil _ _) hrun hnext ih
    rwa [List.cons_append, List.takeWhile_append_dropWhile] at hcut

namespace Grammar

open Text.Recognizer

/-- Characters that are not of a class, at least one of them. -/
def others (p : Char → Bool) : Recognizer String := slice (many1 do
  notAhead (char p)
  char fun _ => true)

def opening : Recognizer Char := char isOpening

def closing : Recognizer Char := char (· = '}')

def placeholder : Recognizer Segment := do
  let _ ← opening
  let name ← others isBrace
  let _ ← closing
  return .placeholder name

def segment : Recognizer Segment :=
  placeholder <|> .text <$> others isOpening <|> .text <$> slice opening

def segments : Recognizer (List Segment) := many segment

section

variable {p : Char → Bool} {byte : Nat} {cs run name rest : List Char}

theorem others_eq (p : Char → Bool) : others p = slice (many1 (char (!p ·))) := by
  refine congrArg (fun r => slice (many1 r)) (funext fun ⟨byte, cs⟩ => ?_)
  cases cs with
  | nil => rfl
  | cons c cs => cases hc : p c <;> simp [bind_apply, notAhead, char, hc]

theorem others_of_run (hne : run ≠ []) (hrun : ∀ c ∈ run, p c = false)
    (hnext : ∀ c ∈ rest.head?, p c = true) (byte : Nat) : others p ⟨byte, run ++ rest⟩ =
      some (String.ofList run, ⟨byte + byteLength run, rest⟩) := by
  rw [others_eq]
  exact slice_append (many1_char hne (by simpa using hrun) (by simpa using hnext) byte)

theorem others_of_none (h : ∀ c ∈ cs.head?, p c = true) (byte : Nat) :
    others p ⟨byte, cs⟩ = none := by
  rw [others_eq, slice_of_none (many1_of_none (char_of_neg (by simpa using h) byte))]

theorem placeholder_of_name (hname : IsName name) (byte : Nat) (rest : List Char) : ∃ stop,
    placeholder ⟨byte, '{' :: (name ++ '}' :: rest)⟩ =
      some (.placeholder (String.ofList name), ⟨stop, rest⟩) := by
  have hnext : ∀ c ∈ ('}' :: rest).head?, isBrace c = true := by simp [isBrace]
  have hrun : ∀ c ∈ name, isBrace c = false := fun c hc => isBrace_eq_false.2 (hname.2 c hc)
  rw [placeholder, bind_apply, opening, char_of_pos (by decide), Option.bind_some, bind_apply,
    others_of_run hname.1 hrun hnext, Option.bind_some, bind_apply, closing,
    char_of_pos (by decide), Option.bind_some, pure_apply]
  exact ⟨_, rfl⟩

theorem placeholder_of_none (h : name? cs = none) (byte : Nat) :
    placeholder ⟨byte, '{' :: cs⟩ = none := by
  have hsplit := List.takeWhile_append_dropWhile (p := (!isBrace ·)) (l := cs)
  have hrun : ∀ c ∈ cs.takeWhile (!isBrace ·), isBrace c = false := fun c hc => by
    simpa using List.mem_takeWhile_imp hc
  have hnext : ∀ c ∈ (cs.dropWhile (!isBrace ·)).head?, isBrace c = true := by
    simpa using Text.head?_dropWhile (p := (!isBrace ·)) cs
  rw [placeholder, bind_apply, opening, char_of_pos (by decide), Option.bind_some, bind_apply]
  generalize cs.takeWhile (!isBrace ·) = run at hsplit hrun
  generalize cs.dropWhile (!isBrace ·) = rest at hsplit hnext
  subst hsplit
  by_cases hne : run = []
  · subst hne
    rw [List.nil_append, others_of_none hnext, Option.bind_none]
  · rw [others_of_run hne hrun hnext, Option.bind_some, bind_apply, closing, char_of_neg,
      Option.bind_none]
    intro c hc
    refine decide_eq_false ?_
    rintro rfl
    obtain ⟨behind, rfl⟩ := List.head?_eq_some_iff.1 (Option.mem_def.1 hc)
    rw [name?_eq_some.2 ⟨⟨hne, fun c hc => isBrace_eq_false.1 (hrun c hc)⟩, rfl⟩] at h
    cases h

/-- The grammar reads every text to its end, segment by segment as it is cut. -/
theorem many_segment {segments : List Segment} (h : Cut cs segments) (byte : Nat) :
    ∃ stop, many segment ⟨byte, cs⟩ = some (segments, ⟨stop, []⟩) := by
  induction h generalizing byte with
  | nil => exact ⟨byte, many_of_none rfl⟩
  | @placeholder name rest segments hname _ ih =>
    obtain ⟨middle, hread⟩ := placeholder_of_name hname byte rest
    obtain ⟨stop, hrest⟩ := ih middle
    have hsegment : segment ⟨byte, '{' :: (name ++ '}' :: rest)⟩ =
        some (.placeholder (String.ofList name), ⟨middle, rest⟩) := by
      rw [segment, orElse_apply, hread]
      rfl
    refine ⟨stop, ?_⟩
    rw [many_of_some hsegment (by simp; omega), hrest]
    rfl
  | @lone rest segments hname _ ih =>
    obtain ⟨stop, hrest⟩ := ih (byte + '{'.utf8Size)
    have hopening : slice opening ⟨byte, ['{'] ++ rest⟩ =
        some ("\x7b", ⟨byte + '{'.utf8Size, rest⟩) :=
      slice_append (char_of_pos (by decide) byte rest)
    have hsegment : segment ⟨byte, '{' :: rest⟩ =
        some (.text "\x7b", ⟨byte + '{'.utf8Size, rest⟩) := by
      rw [segment, orElse_apply, placeholder_of_none hname, orElse_apply, map_apply, map_apply,
        others_of_none (by simp [isOpening]), ← List.singleton_append, hopening]
      rfl
    refine ⟨stop, ?_⟩
    rw [many_of_some hsegment (by simp), hrest]
    rfl
  | @run run rest segments hne hrun hnext _ ih =>
    obtain ⟨stop, hrest⟩ := ih (byte + byteLength run)
    have hplaceholder : placeholder ⟨byte, run ++ rest⟩ = none := by
      obtain ⟨c, run, rfl⟩ := List.exists_cons_of_ne_nil hne
      rw [placeholder, bind_apply, opening, List.cons_append,
        char_of_neg (by simpa using hrun c List.mem_cons_self), Option.bind_none]
    have hsegment : segment ⟨byte, run ++ rest⟩ =
        some (.text (String.ofList run), ⟨byte + byteLength run, rest⟩) := by
      rw [segment, orElse_apply, hplaceholder, orElse_apply, map_apply,
        others_of_run hne hrun hnext]
      rfl
    have hlength := List.length_pos_of_ne_nil hne
    refine ⟨stop, ?_⟩
    rw [many_of_some hsegment (by simp; omega), hrest]
    rfl

/-- The grammar accepts every format, and what it makes of it are the segments. -/
theorem read?_segments (format : String) :
    segments.read? format = some (DisplayFormat.segments format) := by
  obtain ⟨stop, hread⟩ := many_segment (cut_segmentsOf format.toList) 0
  rw [Recognizer.read?, segments, hread]
  rfl

end

end Grammar

variable {cs run rest : List Char} {segs : List Segment} {start : Nat} {name : String}

@[simp] theorem toList_placeholder (name : String) :
    (placeholder name).toList = '{' :: (name.toList ++ ['}']) := by
  simp [placeholder, Segment.source]

theorem source_of_cut (h : Cut cs segs) : segs.flatMap (fun s => s.source.toList) = cs := by
  induction h with
  | nil => rfl
  | placeholder hname _ ih =>
    rw [List.flatMap_cons, ih]
    simp [Segment.source]
  | lone hname _ ih =>
    rw [List.flatMap_cons, ih]
    rfl
  | run hne hrun hnext _ ih =>
    rw [List.flatMap_cons, ih]
    simp [Segment.source]

theorem join_source (format : String) :
    String.join ((segments format).map Segment.source) = format := by
  rw [← String.toList_inj, String.toList_join, List.flatMap_map]
  exact source_of_cut (cut_segmentsOf format.toList)

/-- The placeholders among segments that are written from byte `start` on, with the bytes where they
begin. -/
def placesFrom (start : Nat) : List Segment → List (Nat × String)
  | [] => []
  | .text content :: rest => placesFrom (start + content.utf8ByteSize) rest
  | .placeholder name :: rest =>
    (start, name) :: placesFrom (start + (placeholder name).utf8ByteSize) rest

/-- The placeholders of a format with the bytes where they begin. -/
def places (format : String) : List (Nat × String) := placesFrom 0 (segments format)

theorem le_of_mem_placesFrom {start : Nat} {place : Nat × String}
    (h : place ∈ placesFrom start segs) : start ≤ place.1 := by
  fun_induction placesFrom start segs with
  | case1 => cases h
  | case2 start content rest ih => exact (Nat.le_add_right _ _).trans (ih h)
  | case3 start name rest ih =>
    rcases List.mem_cons.1 h with rfl | h
    · exact Nat.le_refl _
    · exact (Nat.le_add_right _ _).trans (ih h)

theorem pairwise_placesFrom (start : Nat) (segs : List Segment) :
    (placesFrom start segs).Pairwise fun x y => x.1 < y.1 := by
  fun_induction placesFrom start segs with
  | case1 => exact .nil
  | case2 start content rest ih => exact ih
  | case3 start name rest ih =>
    refine List.pairwise_cons.2 ⟨fun place hplace => ?_, ih⟩
    refine Nat.lt_of_lt_of_le (Nat.lt_add_of_pos_right ?_) (le_of_mem_placesFrom hplace)
    rw [← Text.byteLength_toList, toList_placeholder]
    exact Text.byteLength_pos (List.cons_ne_nil _ _)

/-- A name in braces begins at byte `start` of a text that begins at byte `first`. -/
def Occurs (first : Nat) (cs : List Char) (start : Nat) (name : String) : Prop :=
  IsName name.toList ∧ ∃ before after, cs = before ++ (placeholder name).toList ++ after ∧
    start = first + byteLength before

theorem occurs_cons {first : Nat} {c : Char} : Occurs first (c :: cs) start name ↔
    (start = first ∧ c = '{' ∧ ∃ after, name? cs = some (name.toList, after)) ∨
      Occurs (first + c.utf8Size) cs start name := by
  constructor
  · rintro ⟨hname, before, after, hcs, rfl⟩
    cases before with
    | nil =>
      rw [toList_placeholder] at hcs
      obtain ⟨rfl, rfl⟩ := List.cons.inj hcs
      exact .inl ⟨rfl, rfl, after, name?_eq_some.2 ⟨hname, by simp⟩⟩
    | cons d before =>
      obtain ⟨rfl, rfl⟩ := List.cons.inj hcs
      exact .inr ⟨hname, before, after, rfl, by rw [byteLength, Nat.add_assoc]⟩
  · rintro (⟨rfl, rfl, after, h⟩ | ⟨hname, before, after, rfl, rfl⟩)
    · obtain ⟨hname, rfl⟩ := name?_eq_some.1 h
      exact ⟨hname, [], after, by simp, rfl⟩
    · exact ⟨hname, c :: before, after, rfl, by rw [byteLength, Nat.add_assoc]⟩

/-- Nothing begins in text without opening braces. -/
theorem occurs_append {first : Nat} (h : ∀ c ∈ run, isOpening c = false) :
    Occurs first (run ++ cs) start name ↔ Occurs (first + byteLength run) cs start name := by
  induction run generalizing first with
  | nil => rfl
  | cons c run ih =>
    rw [List.forall_mem_cons] at h
    rw [List.cons_append, occurs_cons, ih h.2, byteLength, Nat.add_assoc]
    exact or_iff_right fun hfirst => isOpening_eq_false.1 h.1 hfirst.2.1

theorem not_occurs_nil {first : Nat} : ¬ Occurs first [] start name := by
  rintro ⟨-, before, after, hcs, -⟩
  simp at hcs

theorem mem_placesFrom_of_cut (h : Cut cs segs) {first : Nat} :
    (start, name) ∈ placesFrom first segs ↔ Occurs first cs start name := by
  induction h generalizing first with
  | nil => simp [placesFrom, not_occurs_nil]
  | @placeholder nm rest segs hname _ ih =>
    have hsize : (placeholder (String.ofList nm)).utf8ByteSize =
        '{'.utf8Size + byteLength (nm ++ ['}']) := by
      rw [← Text.byteLength_toList, toList_placeholder, byteLength, String.toList_ofList]
    have hfirst : name? (nm ++ '}' :: rest) = some (nm, rest) := name?_eq_some.2 ⟨hname, rfl⟩
    have hrest : nm ++ '}' :: rest = nm ++ ['}'] ++ rest := by simp
    rw [placesFrom, List.mem_cons, ih, hsize, occurs_cons, hfirst, hrest,
      occurs_append hname.not_isOpening, Nat.add_assoc]
    refine or_congr_left ?_
    simp [String.ext_iff, eq_comm]
  | @lone rest segs hname _ ih =>
    rw [placesFrom, ih, occurs_cons, hname]
    exact (or_iff_right (by simp)).symm
  | @run run rest segs hne hrun hnext _ ih =>
    rw [placesFrom, ih, occurs_append hrun, ← Text.byteLength_toList, String.toList_ofList]

/-- The placeholders are all the names in braces that the format has. -/
theorem mem_places {format : String} : (start, name) ∈ places format ↔
    IsName name.toList ∧ ∃ stop, Text.IsSlice format start stop (placeholder name) := by
  rw [places, segments, mem_placesFrom_of_cut (cut_segmentsOf format.toList), Occurs]
  simp [Text.isSlice_iff]

/-- A text where every name in braces that has a value is replaced by it, and where every other
character is kept. -/
inductive Rendered (value? : String → Option String) : List Char → List Char → Prop where
  | nil : Rendered value? [] []
  | value {cs rest result : List Char} {name value : String} : IsName name.toList →
    cs = (placeholder name).toList ++ rest → value? name = some value →
    Rendered value? rest result → Rendered value? cs (value.toList ++ result)
  | kept {c : Char} {cs result : List Char} : (∀ name rest, IsName name.toList →
    c :: cs = (placeholder name).toList ++ rest → value? name = none) → Rendered value? cs result →
    Rendered value? (c :: cs) (c :: result)

section

variable {value? : String → Option String} {result result' : List Char}

theorem Rendered.append (h : Rendered value? cs result) (hrun : ∀ c ∈ run, isOpening c = false) :
    Rendered value? (run ++ cs) (run ++ result) := by
  induction run with
  | nil => exact h
  | cons c run ih =>
    rw [List.forall_mem_cons] at hrun
    refine .kept (fun name rest _ hcs => ?_) (ih hrun.2)
    rw [toList_placeholder] at hcs
    exact absurd (List.cons.inj hcs).1 (isOpening_eq_false.1 hrun.1)

theorem eq_of_placeholder {name name' : String} {rest' : List Char} (hname : IsName name.toList)
    (hname' : IsName name'.toList)
    (h : (placeholder name).toList ++ rest = (placeholder name').toList ++ rest') :
    name = name' ∧ rest = rest' := by
  have htails : name.toList ++ '}' :: rest = name'.toList ++ '}' :: rest' := by simpa using h
  have hboth := (name?_eq_some.2 ⟨hname, rfl⟩).symm.trans (name?_eq_some.2 ⟨hname', htails⟩)
  obtain ⟨hnames, hrests⟩ := Prod.mk.inj (Option.some.inj hboth)
  exact ⟨String.toList_inj.1 hnames, hrests⟩

theorem Rendered.unique (h : Rendered value? cs result) (h' : Rendered value? cs result') :
    result = result' := by
  induction h generalizing result' with
  | nil =>
    cases h' with
    | nil => rfl
    | value _ hcs _ _ => simp at hcs
  | @value cs rest result name value hname hcs hvalue _ ih =>
    cases h' with
    | nil => simp at hcs
    | @value _ rest' result' name' value' hname' hcs' hvalue' hrest =>
      obtain ⟨rfl, rfl⟩ := eq_of_placeholder hname hname' (hcs.symm.trans hcs')
      obtain rfl := Option.some.inj (hvalue.symm.trans hvalue')
      rw [ih hrest]
    | kept hnone _ => cases hvalue.symm.trans (hnone name rest hname hcs)
  | @kept c cs result hnone _ ih =>
    cases h' with
    | value hname hcs hvalue _ => cases hvalue.symm.trans (hnone _ _ hname hcs)
    | kept _ hrest => rw [ih hrest]

theorem rendered_of_cut (h : Cut cs segs) (value? : String → Option String) :
    Rendered value? cs (segs.flatMap fun s => (s.render value?).toList) := by
  induction h with
  | nil => exact .nil
  | @placeholder name rest segs hname _ ih =>
    have hcs : '{' :: (name ++ '}' :: rest) =
        (placeholder (String.ofList name)).toList ++ rest := by simp
    have hname' : IsName (String.ofList name).toList := by rwa [String.toList_ofList]
    rw [List.flatMap_cons, Segment.render]
    cases hvalue : value? (String.ofList name) with
    | some value => exact .value hname' hcs hvalue ih
    | none =>
      rw [hcs, Option.getD_none, ← placeholder, toList_placeholder, String.toList_ofList,
        List.cons_append, List.cons_append]
      refine .kept (fun name' rest' hname'' hcs' => ?_) (ih.append hname.not_isOpening)
      have hstart : (placeholder (String.ofList name)).toList ++ rest =
          (placeholder name').toList ++ rest' := by simpa using hcs'
      obtain ⟨rfl, -⟩ := eq_of_placeholder hname' hname'' hstart
      exact hvalue
  | @lone rest segs hname _ ih =>
    have htext : "\x7b".toList = ['{'] := rfl
    rw [List.flatMap_cons, Segment.render, htext, List.singleton_append]
    refine .kept (fun name' rest' hname' hcs => ?_) ih
    rw [toList_placeholder] at hcs
    have hrest : rest = name'.toList ++ '}' :: rest' := by simpa using hcs
    cases hname.symm.trans (name?_eq_some.2 ⟨hname', hrest⟩)
  | @run run rest segs hne hrun hnext _ ih =>
    rw [List.flatMap_cons, Segment.render, String.toList_ofList]
    exact ih.append hrun

theorem rendered_iff (format : String) (value? : String → Option String) (result : String) :
    Rendered value? format.toList result.toList ↔ result = render format value? := by
  have hrender : Rendered value? format.toList (render format value?).toList := by
    rw [render, String.toList_join, List.flatMap_map]
    exact rendered_of_cut (cut_segmentsOf format.toList) value?
  constructor
  · exact fun h => String.toList_inj.1 (h.unique hrender)
  · rintro rfl
    exact hrender

end

/-- Formats are cut and rendered in one exact pass. The grammar accepts every format and gives its
segments. The placeholders are, in their order, all the names in braces that the format has, and the
segments one after another are the format. To render it is to replace each name that has a value and
to keep every other character. -/
theorem segments_exact (format : String) :
    Grammar.segments.read? format = some (segments format) ∧
    ((places format).Pairwise (fun x y => x.1 < y.1) ∧
      ∀ start name, (start, name) ∈ places format ↔
        IsName name.toList ∧ ∃ stop, Text.IsSlice format start stop (placeholder name)) ∧
    String.join ((segments format).map Segment.source) = format ∧
    ∀ value? result, Rendered value? format.toList result.toList ↔ result = render format value? :=
  ⟨Grammar.read?_segments format, ⟨pairwise_placesFrom 0 _, fun _ _ => mem_places⟩,
    join_source format, rendered_iff format⟩

example : segments "\x7b\x7b0\x7d \x7b" =
    [.text "\x7b", .placeholder "0", .text " ", .text "\x7b"] := by
  with_unfolding_all decide

end DisplayFormat

end Formulary
