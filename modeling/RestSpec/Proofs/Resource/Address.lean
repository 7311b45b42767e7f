/-
Paths and what is written in them. An address is a path in its parts: a root, the labels of its
segments with the names of their parameters, and whether a slash closes it. Where names hold none of
the characters that paths are put together with, every dialect writes different addresses as
different paths, and the last label can be read off a path in any dialect.
-/
import RestSpec.Proofs.Naming.Unique
import RestSpec.Proofs.Resource.Offered
import RestSpec.Proofs.Text.Words

namespace RestSpec

open DataModel

/-! ## Texts put together -/

/-- A text between every two of some texts, by `intercalate`, is one before each, but for the
first. -/
theorem append_intercalate {α : Type} (mark : List α) : ∀ {ws : List (List α)}, ws ≠ [] →
    mark ++ mark.intercalate ws = ws.flatMap (mark ++ ·)
  | [w], _ => by simp
  | w :: w' :: ws, _ => by
    rw [List.intercalate_cons_cons, List.flatMap_cons,
      ← append_intercalate mark (List.cons_ne_nil w' ws)]
    simp

theorem getLast?_intercalate_ne {α : Type} {mark : List α} {a : α} : ∀ {ws : List (List α)},
    (∀ w ∈ ws, w ≠ [] ∧ w.getLast? ≠ some a) → (mark.intercalate ws).getLast? ≠ some a
  | [], _ => by simp
  | [w], h => by simpa using (h w List.mem_cons_self).2
  | w :: w' :: ws, h => by
    have hrest : ∀ x ∈ w' :: ws, x ≠ [] ∧ x.getLast? ≠ some a :=
      fun x hx => h x (List.mem_cons_of_mem _ hx)
    have hnonempty : mark.intercalate (w' :: ws) ≠ [] := by
      cases ws with
      | nil => simpa using (hrest w' List.mem_cons_self).1
      | cons w'' ws => simp [List.intercalate_cons_cons, (hrest w' List.mem_cons_self).1]
    rw [List.intercalate_cons_cons, List.getLast?_append_of_ne_nil _ hnonempty]
    exact getLast?_intercalate_ne hrest

/-! ## Names without marks -/

/-- A name that is not empty and holds none of the characters `marks`. -/
structure PlainName (marks : List Char) (n : String) : Prop where
  nonempty : n ≠ ""
  disjoint : n.toList.Disjoint marks

instance (marks : List Char) (n : String) : Decidable (PlainName marks n) :=
  -- a test of the list: a statement on all characters is decided by going through all there are
  decidable_of_iff (n ≠ "" ∧ n.toList.all (fun c => !marks.contains c) = true) <| by
    rw [List.all_eq_true]
    simp only [Bool.not_eq_true', List.contains_eq_mem, decide_eq_false_iff_not]
    exact ⟨fun h => ⟨h.1, fun c hc => h.2 c hc⟩, fun h => ⟨h.nonempty, fun _ hc => h.disjoint hc⟩⟩

theorem bne_of_disjoint {marks w : List Char} {c : Char} (h : w.Disjoint marks) (hc : c ∈ marks) :
    ∀ x ∈ w, (x != c) = true := by
  intro x hx
  rw [bne_iff_ne]
  rintro rfl
  exact h hx hc

/-- What begins with a `PlainName` does not begin with a mark. -/
theorem PlainName.head?_append_ne {marks : List Char} {n : String} {c : Char}
    (h : PlainName marks n) (hc : c ∈ marks) (rest : List Char) :
    (n.toList ++ rest).head? ≠ some c := by
  have hne : n.toList ≠ [] := by simpa using h.nonempty
  rw [List.head?_append_of_ne_nil _ hne]
  exact fun hhead => h.disjoint (List.mem_of_mem_head? hhead) hc

/-- `takeWhile` up to a mark gives the `PlainName` before it. -/
theorem PlainName.takeWhile_append {marks : List Char} {n : String} {c : Char}
    (h : PlainName marks n) (hc : c ∈ marks) {rest : List Char}
    (hrest : rest.head?.all (· == c) = true) :
    (n.toList ++ rest).takeWhile (· != c) = n.toList := by
  rw [List.takeWhile_append_of_pos (bne_of_disjoint h.disjoint hc)]
  cases rest with
  | nil => simp
  | cons c' rest => simp_all

/-! ## Addresses -/

/-- A path in its parts: the `root`, the segments with their labels and the names of their
parameters, and whether a slash closes it. -/
@[ext]
structure Address where
  root : String
  parts : List (String × List String)
  closed : Bool

namespace Address

/-- The address as a `Dialect` writes it. -/
def text (d : Dialect) (a : Address) : List Char :=
  '/' :: a.root.toList ++
    a.parts.flatMap (fun part => '/' :: part.1.toList ++ (d.writeParameters part.2).toList) ++
    if a.closed then ['/'] else []

/-- What stands between the slashes where every parameter is a segment, by `placeholder`. -/
def pieces (a : Address) : List (List Char) :=
  a.root.toList :: a.parts.flatMap fun part =>
    part.1.toList :: part.2.map fun n => (Dialect.placeholder n).toList

/-- The root and the labels are each a `PlainName`, and parameters hold none of `marks`. -/
structure FreeOf (marks : List Char) (a : Address) : Prop where
  root : PlainName marks a.root
  labels : ∀ part ∈ a.parts, PlainName marks part.1
  names : ∀ part ∈ a.parts, ∀ n ∈ part.2, n.toList.Disjoint marks

variable {marks : List Char} {d : Dialect} {a b : Address}

theorem toList_placeholder (n : String) :
    (Dialect.placeholder n).toList = '{' :: n.toList ++ ['}'] := by
  simp [Dialect.placeholder]

/-- In the dialect `rfc8040` the parameters of one segment have a comma before each, but an equals
sign before the first. -/
theorem parameters_rfc8040 {names : List String} (hne : names ≠ []) :
    ∃ rest, (Dialect.writeParameters .rfc8040 names).toList = '=' :: rest ∧
      ',' :: rest = names.flatMap fun n => ',' :: (Dialect.placeholder n).toList := by
  refine ⟨[','].intercalate (names.map fun n => (Dialect.placeholder n).toList), ?_, ?_⟩
  · cases names with
    | nil => exact absurd rfl hne
    | cons n names => simp [Dialect.writeParameters, Function.comp_def]
  · have hne : (names.map fun n => (Dialect.placeholder n).toList) ≠ [] := by simpa using hne
    simpa [List.flatMap_map] using append_intercalate [','] hne

/-- In the other dialects `writeParameters` puts a slash before each parameter. -/
theorem toList_writeParameters (hd : d ≠ .rfc8040) (names : List String) :
    (d.writeParameters names).toList =
      (names.map fun n => (Dialect.placeholder n).toList).flatMap ('/' :: ·) := by
  cases d with
  | rfc8040 => exact absurd rfl hd
  | _ => cases names <;> simp [Dialect.writeParameters, List.flatMap_map]

theorem text_eq_pieces (hd : d ≠ .rfc8040) (a : Address) :
    a.text d = a.pieces.flatMap ('/' :: ·) ++ if a.closed then ['/'] else [] := by
  simp only [text, pieces, toList_writeParameters hd, List.flatMap_cons, List.flatMap_assoc]

theorem FreeOf.pieces (h : a.FreeOf marks) (hslash : '/' ∈ marks) :
    ∀ w ∈ a.pieces, w ≠ [] ∧ ∀ x ∈ w, (x != '/') = true := by
  intro w hw
  rcases List.mem_cons.1 hw with rfl | hw
  · exact ⟨by simpa using h.root.nonempty, bne_of_disjoint h.root.disjoint hslash⟩
  · obtain ⟨part, hpart, hw⟩ := List.mem_flatMap.1 hw
    rcases List.mem_cons.1 hw with rfl | hw
    · have hlabel := h.labels part hpart
      exact ⟨by simpa using hlabel.nonempty, bne_of_disjoint hlabel.disjoint hslash⟩
    · obtain ⟨n, hn, rfl⟩ := List.mem_map.1 hw
      have hname := bne_of_disjoint (h.names part hpart n hn) hslash
      rw [toList_placeholder]
      refine ⟨by simp, fun x hx => ?_⟩
      simp only [List.cons_append, List.mem_cons, List.mem_append, List.not_mem_nil, or_false] at hx
      rcases hx with rfl | hx | rfl
      · decide
      · exact hname x hx
      · decide

/-- Where every parameter is a segment, the `pieces` of an address are the words of the path. -/
theorem words_text (hd : d ≠ .rfc8040) (h : a.FreeOf marks) (hslash : '/' ∈ marks) :
    Text.words (· != '/') (a.text d) = a.pieces := by
  rw [text_eq_pieces hd]
  refine Text.words_flatMap (by decide) ?_ _ (h.pieces hslash)
  cases a.closed
  · exact .inl rfl
  · exact .inr rfl

/-! ## Reading an address -/

/-- A label does not begin like a parameter, so it is known where the parameters of a segment end,
and `parts` can be read off the text. -/
theorem parts_unique {f : String → List Char} (hf : Function.Injective f)
    (hbrace : ∀ n, (f n).head? = some '{') : ∀ {ps qs : List (String × List String)},
    (∀ part ∈ ps, part.1.toList.head? ≠ some '{') → (∀ part ∈ qs, part.1.toList.head? ≠ some '{') →
    (ps.flatMap fun part => part.1.toList :: part.2.map f) =
      (qs.flatMap fun part => part.1.toList :: part.2.map f) → ps = qs
  | [], [], _, _, _ => rfl
  | [], _ :: _, _, _, h => by simp at h
  | _ :: _, [], _, _, h => by simp at h
  | (label, names) :: ps, (label', names') :: qs, hps, hqs, h => by
    obtain ⟨hlabel, hps⟩ := List.forall_mem_cons.1 hps
    obtain ⟨hlabel', hqs⟩ := List.forall_mem_cons.1 hqs
    simp only [List.flatMap_cons, List.cons_append, List.cons.injEq] at h
    obtain ⟨hsame, h⟩ := h
    have hparameters : ∀ (names : List String) (ps : List (String × List String)),
        (∀ part ∈ ps, part.1.toList.head? ≠ some '{') →
        (names.map f ++ ps.flatMap fun part => part.1.toList :: part.2.map f).takeWhile
          (·.head? == some '{') = names.map f := by
      intro names ps hps
      rw [List.takeWhile_append_of_pos]
      · cases ps with
        | nil => simp
        | cons part ps => simp [hps part List.mem_cons_self]
      · intro w hw
        obtain ⟨n, -, rfl⟩ := List.mem_map.1 hw
        simp [hbrace]
    have hmap : names.map f = names'.map f := by
      rw [← hparameters names ps hps, h, hparameters names' qs hqs]
    rw [hmap] at h
    rw [parts_unique hf hbrace hps hqs (List.append_cancel_left h), String.toList_inj.1 hsame,
      List.map_injective_iff.2 hf hmap]

theorem placeholder_injective : Function.Injective fun n => (Dialect.placeholder n).toList := by
  intro n n' h
  simp only [toList_placeholder, List.cons_append, List.cons.injEq, true_and] at h
  exact String.toList_inj.1 (List.append_cancel_right h)

theorem FreeOf.head?_ne (h : a.FreeOf marks) (hbrace : '{' ∈ marks) :
    ∀ part ∈ a.parts, part.1.toList.head? ≠ some '{' := by
  intro part hpart
  simpa using (h.labels part hpart).head?_append_ne hbrace []

/-- A slash in the place of the marks of `rfc8040` that part the parameters of a segment from each
other and from its label. -/
def slash (c : Char) : Char := if c = '=' ∨ c = ',' then '/' else c

section Slash

variable (heq : '=' ∈ marks) (hcomma : ',' ∈ marks)

include heq hcomma

theorem map_slash {w : List Char} (h : w.Disjoint marks) : w.map slash = w := by
  refine (List.map_congr_left fun c hc => ?_).trans (List.map_id w)
  unfold slash
  rw [if_neg]
  · rfl
  · rintro (rfl | rfl)
    · exact h hc heq
    · exact h hc hcomma

theorem map_slash_parameters {names : List String} (h : ∀ n ∈ names, n.toList.Disjoint marks) :
    (Dialect.writeParameters .rfc8040 names).toList.map slash =
      (Dialect.writeParameters .segment names).toList := by
  rcases eq_or_ne names [] with rfl | hne
  · rfl
  have hplaceholder : ∀ n ∈ names,
      (Dialect.placeholder n).toList.map slash = (Dialect.placeholder n).toList := by
    intro n hn
    rw [toList_placeholder, List.map_append, List.map_cons, map_slash heq hcomma (h n hn)]
    rfl
  obtain ⟨rest, hwrite, hcommas⟩ := parameters_rfc8040 hne
  calc (Dialect.writeParameters .rfc8040 names).toList.map slash
      = (',' :: rest).map slash := by
        rw [hwrite]
        rfl
    _ = names.flatMap fun n => '/' :: (Dialect.placeholder n).toList := by
        rw [hcommas, List.map_flatMap]
        refine List.flatMap_congr fun n hn => ?_
        rw [List.map_cons, hplaceholder n hn]
        rfl
    _ = (Dialect.writeParameters .segment names).toList := by
        cases names <;> simp [Dialect.writeParameters, List.flatMap_map]

/-- With a `slash` in the place of other marks, `rfc8040` writes what the dialect `segment` does. -/
theorem map_slash_text (h : a.FreeOf marks) : (a.text .rfc8040).map slash = a.text .segment := by
  have hparts : (a.parts.flatMap fun part => '/' :: part.1.toList ++
      (Dialect.writeParameters .rfc8040 part.2).toList).map slash =
      a.parts.flatMap fun part => '/' :: part.1.toList ++
        (Dialect.writeParameters .segment part.2).toList := by
    rw [List.map_flatMap]
    refine List.flatMap_congr fun part hpart => ?_
    rw [List.map_append, List.map_cons, map_slash heq hcomma (h.labels part hpart).disjoint,
      map_slash_parameters heq hcomma (h.names part hpart)]
    rfl
  unfold text
  rw [List.map_append, List.map_append, List.map_cons, map_slash heq hcomma h.root.disjoint,
    hparts]
  cases a.closed <;> rfl

end Slash

/-- The `text` of addresses that are `FreeOf` the marks tells them apart. -/
theorem text_injective (ha : a.FreeOf marks) (hb : b.FreeOf marks)
    (hmarks : ['/', '{', '=', ','] ⊆ marks) (h : a.text d = b.text d) : a = b := by
  simp only [List.cons_subset, List.nil_subset, and_true] at hmarks
  obtain ⟨hslash, hbrace, heq, hcomma⟩ := hmarks
  -- with slashes for other marks, it is enough to look at a dialect where parameters are segments
  wlog hd : d ≠ .rfc8040 generalizing d
  · obtain rfl : d = .rfc8040 := not_not.1 hd
    refine this (d := .segment) ?_ nofun
    rw [← map_slash_text heq hcomma ha, ← map_slash_text heq hcomma hb, h]
  have hpieces : a.pieces = b.pieces := by
    rw [← words_text hd ha hslash, ← words_text hd hb hslash, h]
  obtain ⟨root, parts, closed⟩ := a
  obtain ⟨root', parts', closed'⟩ := b
  obtain ⟨hroot, hparts⟩ := List.cons.inj hpieces
  have hparts := parts_unique placeholder_injective (fun n => by rw [toList_placeholder]; rfl)
    (ha.head?_ne hbrace) (hb.head?_ne hbrace) hparts
  obtain rfl := String.toList_inj.1 hroot
  obtain rfl : parts = parts' := hparts
  have hclosed := List.append_cancel_left h
  cases closed <;> cases closed' <;> simp_all

/-! ## The key of a payload -/

theorem find?_reverse_append {p : List Char → Bool} {front back : List (List Char)} {w : List Char}
    (hw : p w = true) (hback : ∀ x ∈ back, p x = false) :
    (front ++ w :: back).reverse.find? p = some w := by
  rw [List.reverse_append, List.reverse_cons, List.append_assoc, List.find?_append,
    List.find?_eq_none.2 (by simpa using hback), Option.none_or]
  simp [hw]

theorem parameters_free {names : List String} (h : ∀ n ∈ names, n.toList.Disjoint marks)
    (hslash : '/' ∈ marks) :
    ∀ x ∈ (Dialect.writeParameters .rfc8040 names).toList, (x != '/') = true := by
  intro x hx
  rw [bne_iff_ne]
  rintro rfl
  rcases eq_or_ne names [] with rfl | hne
  · cases hx
  obtain ⟨rest, hwrite, hcommas⟩ := parameters_rfc8040 hne
  have hx : '/' ∈ ',' :: rest := by simpa [hwrite] using hx
  rw [hcommas, List.mem_flatMap] at hx
  obtain ⟨n, hn, hx⟩ := hx
  rw [toList_placeholder] at hx
  exact h n hn (by simpa using hx) hslash

/-- In the dialect `rfc8040` parameters belong to their segments, so the words of the path are the
segments. -/
theorem words_text_rfc8040 (h : a.FreeOf marks) (hslash : '/' ∈ marks) :
    Text.words (· != '/') (a.text .rfc8040) = a.root.toList :: a.parts.map fun part =>
      part.1.toList ++ (Dialect.writeParameters .rfc8040 part.2).toList := by
  have htext : a.text .rfc8040 = (a.root.toList :: a.parts.map fun part =>
      part.1.toList ++ (Dialect.writeParameters .rfc8040 part.2).toList).flatMap ('/' :: ·) ++
        if a.closed then ['/'] else [] := by
    simp [text, List.flatMap_map]
  rw [htext]
  refine Text.words_flatMap (by decide) ?_ _ (List.forall_mem_cons.2
    ⟨⟨by simpa using h.root.nonempty, bne_of_disjoint h.root.disjoint hslash⟩, fun w hw => ?_⟩)
  · cases a.closed
    · exact .inl rfl
    · exact .inr rfl
  · obtain ⟨part, hpart, rfl⟩ := List.mem_map.1 hw
    obtain ⟨hne, hlabel⟩ := h.labels part hpart
    refine ⟨by simp [hne], fun x hx => ?_⟩
    rcases List.mem_append.1 hx with hx | hx
    · exact bne_of_disjoint hlabel hslash x hx
    · exact parameters_free (h.names part hpart) hslash x hx

/-- The `payloadKey` of a path is its last label. -/
theorem payloadKey_text (h : a.FreeOf marks) (hmarks : ['/', '{', '='] ⊆ marks)
    {front : List (String × List String)} {label : String} {names : List String}
    (hparts : a.parts = front ++ [(label, names)]) {path : String} (hpath : path.toList = a.text d) :
    Document.payloadKey path = label := by
  simp only [List.cons_subset, List.nil_subset, and_true] at hmarks
  obtain ⟨hslash, hbrace, heq⟩ := hmarks
  have hmem : (label, names) ∈ a.parts := hparts ▸ List.mem_append_right _ List.mem_cons_self
  have hlabel := h.labels _ hmem
  have hhead : ∀ rest : List Char, ((label.toList ++ rest).head? != some '{') = true :=
    fun rest => bne_iff_ne.2 (hlabel.head?_append_ne hbrace rest)
  unfold Document.payloadKey
  dsimp only
  rw [hpath]
  by_cases hd : d = .rfc8040
  · subst hd
    rw [words_text_rfc8040 h hslash, hparts, List.map_append, ← List.cons_append,
      List.map_singleton, find?_reverse_append (hhead _) (by simp), Option.getD_some,
      hlabel.takeWhile_append heq, String.ofList_toList]
    cases names <;> simp [Dialect.writeParameters]
  · rw [words_text hd h hslash, pieces, hparts, List.flatMap_append, ← List.cons_append,
      List.flatMap_singleton, find?_reverse_append, Option.getD_some]
    · have hwhole : (label.toList ++ []).takeWhile (· != '=') = label.toList :=
        hlabel.takeWhile_append heq rfl
      rw [List.append_nil] at hwhole
      rw [hwhole, String.ofList_toList]
    · simpa using hhead []
    · intro w hw
      obtain ⟨n, -, rfl⟩ := List.mem_map.1 hw
      simp [toList_placeholder]

/-! ## Written texts -/

/-- The segments of an address as `text` writes them, with slashes between. -/
def written (d : Dialect) (parts : List (String × List String)) : String :=
  "/".intercalate (parts.map fun part => part.1 ++ d.writeParameters part.2)

theorem toList_written {parts : List (String × List String)} (hne : parts ≠ []) (d : Dialect) :
    '/' :: (written d parts).toList = parts.flatMap fun part =>
      '/' :: part.1.toList ++ (d.writeParameters part.2).toList := by
  have hne : (parts.map fun part => part.1.toList ++ (d.writeParameters part.2).toList) ≠ [] := by
    simpa using hne
  have happend := append_intercalate ['/'] hne
  simpa [written, String.toList_intercalate, Function.comp_def, List.flatMap_map] using happend

theorem getLast?_parameters (d : Dialect) {names : List String} (hne : names ≠ []) :
    (d.writeParameters names).toList.getLast? = some '}' := by
  have hlast : ∀ c : Char,
      (names.flatMap fun n => c :: (Dialect.placeholder n).toList).getLast? = some '}' := by
    intro c
    rw [← List.dropLast_append_getLast hne, List.flatMap_append, List.flatMap_singleton,
      List.getLast?_append_of_ne_nil _ (List.cons_ne_nil _ _), toList_placeholder,
      ← List.cons_append, List.getLast?_concat]
  by_cases hd : d = .rfc8040
  · subst hd
    obtain ⟨rest, hwrite, hcommas⟩ := parameters_rfc8040 hne
    have hrest := hlast ','
    rw [← hcommas] at hrest
    cases rest with
    | nil => cases hrest
    | cons c rest =>
      rw [hwrite]
      exact hrest
  · cases names with
    | nil => exact absurd rfl hne
    | cons n names =>
      cases d with
      | rfc8040 => exact absurd rfl hd
      | _ => simpa [Dialect.writeParameters, List.flatMap_map] using hlast '/'

/-- What is `written` before it is closed does not end in a slash. -/
theorem getLast?_written (hslash : '/' ∈ marks) {parts : List (String × List String)}
    (h : ∀ part ∈ parts, PlainName marks part.1) (d : Dialect) :
    (written d parts).toList.getLast? ≠ some '/' := by
  unfold written
  rw [String.toList_intercalate]
  refine getLast?_intercalate_ne fun w hw => ?_
  simp only [List.map_map, List.mem_map, Function.comp_apply] at hw
  obtain ⟨⟨label, names⟩, hpart, rfl⟩ := hw
  have hlabel := h _ hpart
  rw [String.toList_append]
  refine ⟨by simp [hlabel.nonempty], ?_⟩
  rcases eq_or_ne names [] with rfl | hne
  · have hempty : (d.writeParameters []).toList = [] := by cases d <;> rfl
    rw [hempty, List.append_nil]
    exact fun hlast => hlabel.disjoint (List.mem_of_getLast? hlast) hslash
  · have hbrace := getLast?_parameters d hne
    have hne' : (d.writeParameters names).toList ≠ [] := by
      intro hnil
      rw [hnil] at hbrace
      cases hbrace
    rw [List.getLast?_append_of_ne_nil _ hne', hbrace]
    simp

theorem toList_rooted (root path : String) :
    ("/" ++ root ++ "/" ++ path).toList = '/' :: root.toList ++ '/' :: path.toList := by
  simp

theorem toList_withFinalSlash {path : String} (h : path.toList.getLast? ≠ some '/') :
    (withFinalSlash path).toList = path.toList ++ ['/'] := by
  unfold withFinalSlash
  rw [if_neg (by simpa using h), String.toList_append]
  rfl

end Address

/-! ## Routes -/

/-- What a segment writes: its `label` and the names of its parameters. -/
def Segment.part (useModuleName : Bool) (s : Segment) : String × List String :=
  (s.label useModuleName, s.parameters.map (·.name))

/-- What a segment writes in a list path: its `label` without the parameters. -/
def Segment.collectionPart (useModuleName : Bool) (s : Segment) : String × List String :=
  (s.label useModuleName, [])

/-- A segment whose names are each a `PlainName`. -/
structure Segment.Plain (marks : List Char) (s : Segment) : Prop where
  name : PlainName marks s.name
  moduleName : PlainName marks s.moduleName
  parameters : ∀ p ∈ s.parameters, p.name.toList.Disjoint marks

namespace Settings

/-- The `Address` that `dataPath` spells for a route: the data root, and a part for each segment. -/
def dataAddress (s : Settings) (route : Route) : Address where
  root := s.dialect.dataRoot
  parts := route.map (Segment.part s.useModuleName)
  closed := s.dialect == .odl

/-- The `Address` that `listPath` spells for a route, without the keys of the last segment. -/
def listAddress (s : Settings) (route : Route) : Address where
  root := s.dialect.dataRoot
  parts := route.dropLast.map (Segment.part s.useModuleName) ++
    route.getLast?.toList.map (Segment.collectionPart s.useModuleName)
  closed := true

/-- The `Address` that `callPath` spells for an rpc, of one part without keys. -/
def callAddress (s : Settings) (n : DataModel.Node) : Address where
  root := operationsRoot
  parts := [(({ name := n.name, moduleName := n.moduleName } : Segment).label s.useModuleName, [])]
  closed := s.dialect == .odl

end Settings

section Routes

variable {marks : List Char} {s : Settings} {route : Route}

theorem Segment.label_disjoint {segment : Segment} {useModuleName : Bool}
    (hname : segment.name.toList.Disjoint marks)
    (hmodule : segment.moduleName.toList.Disjoint marks)
    (hcolon : useModuleName = true → ':' ∉ marks) :
    (segment.label useModuleName).toList.Disjoint marks := by
  unfold Segment.label
  split
  · rename_i huse
    intro c hc hmark
    simp only [String.toList_append, List.mem_append] at hc
    rcases hc with (hc | hc) | hc
    · exact hmodule hc hmark
    · obtain rfl := List.mem_singleton.1 hc
      exact hcolon huse hmark
    · exact hname hc hmark
  · exact hname

theorem Segment.Plain.label {segment : Segment} (h : segment.Plain marks) {useModuleName : Bool}
    (hcolon : useModuleName = true → ':' ∉ marks) :
    PlainName marks (segment.label useModuleName) := by
  refine ⟨?_, Segment.label_disjoint h.name.disjoint h.moduleName.disjoint hcolon⟩
  unfold Segment.label
  split
  · intro hempty
    simpa using congrArg String.toList hempty
  · exact h.name.nonempty

/-- Characters `marks` of which a slash is one, and that no part of a path holds if no name does. -/
structure Settings.Marks (s : Settings) (marks : List Char) : Prop where
  slash : '/' ∈ marks
  colon : s.useModuleName = true → ':' ∉ marks
  hyphen : '-' ∉ marks
  digits : ∀ c ∈ marks, c.isDigit = false
  roots : ∀ root ∈ ["data", "config", operationsRoot], PlainName marks root

variable (hmarks : s.Marks marks) (hroute : ∀ segment ∈ route, segment.Plain marks)

include hmarks hroute

theorem Settings.dataAddress_freeOf : (s.dataAddress route).FreeOf marks := by
  refine ⟨hmarks.roots _ ?_, fun part hpart => ?_, fun part hpart n hn => ?_⟩
  · show s.dialect.dataRoot ∈ _
    cases s.dialect <;> decide
  · obtain ⟨segment, hsegment, rfl⟩ := List.mem_map.1 hpart
    exact (hroute segment hsegment).label hmarks.colon
  · obtain ⟨segment, hsegment, rfl⟩ := List.mem_map.1 hpart
    obtain ⟨p, hp, rfl⟩ := List.mem_map.1 hn
    exact (hroute segment hsegment).parameters p hp

theorem Settings.listAddress_freeOf : (s.listAddress route).FreeOf marks := by
  have hdata := Settings.dataAddress_freeOf hmarks
    fun segment hsegment => hroute segment (List.dropLast_subset _ hsegment)
  refine ⟨hdata.root, fun part hpart => ?_, fun part hpart n hn => ?_⟩
  · rcases List.mem_append.1 hpart with hpart | hpart
    · exact hdata.labels part hpart
    · obtain ⟨segment, hsegment, rfl⟩ := List.mem_map.1 hpart
      have hmem := List.mem_of_getLast? (Option.mem_toList.1 hsegment)
      exact (hroute segment hmem).label hmarks.colon
  · rcases List.mem_append.1 hpart with hpart | hpart
    · exact hdata.names part hpart n hn
    · obtain ⟨segment, -, rfl⟩ := List.mem_map.1 hpart
      cases hn

theorem Route.toList_path (hne : route ≠ []) (d : Dialect) :
    '/' :: (route.path d s.useModuleName).toList =
      ((route.map (Segment.part s.useModuleName)).flatMap fun part =>
        '/' :: part.1.toList ++ (d.writeParameters part.2).toList) ++
      if d == .odl then ['/'] else [] := by
  have htext : "/".intercalate (route.map (Segment.write d s.useModuleName)) =
      Address.written d (route.map (Segment.part s.useModuleName)) := by
    unfold Address.written
    rw [List.map_map]
    rfl
  have hlast := Address.getLast?_written hmarks.slash
    (Settings.dataAddress_freeOf hmarks hroute).labels d
  have hne : route.map (Segment.part s.useModuleName) ≠ [] := by simpa using hne
  rw [← Address.toList_written hne d]
  unfold Route.path
  dsimp only
  rw [htext]
  cases d with
  | odl =>
    exact congrArg ('/' :: ·) (Address.toList_withFinalSlash hlast)
  | _ => exact (List.append_nil _).symm

theorem Settings.toList_dataPath (hne : route ≠ []) :
    (s.dataPath route).toList = (s.dataAddress route).text s.dialect := by
  have hpath := Route.toList_path hmarks hroute hne s.dialect
  unfold Settings.dataPath Address.text
  rw [Address.toList_rooted, hpath, List.append_assoc]
  rfl

theorem Settings.toList_listPath (hne : route ≠ []) :
    (s.listPath route).toList = (s.listAddress route).text s.dialect := by
  have hempty : s.dialect.writeParameters [] = "" := by cases s.dialect <;> rfl
  have hwhole : route.dropLast.map (Segment.write s.dialect s.useModuleName) ++
      route.getLast?.toList.map (Segment.label s.useModuleName) =
      (s.listAddress route).parts.map fun part => part.1 ++ s.dialect.writeParameters part.2 := by
    unfold Settings.listAddress
    rw [List.map_append, List.map_map, List.map_map]
    refine congrArg₂ _ rfl (List.map_congr_left fun segment _ => ?_)
    show _ = _ ++ s.dialect.writeParameters []
    rw [hempty, String.append_empty]
    rfl
  have hne' : (s.listAddress route).parts ≠ [] := by
    unfold Settings.listAddress
    rw [List.getLast?_eq_some_getLast hne]
    simp
  have hlast := Address.getLast?_written hmarks.slash
    (Settings.listAddress_freeOf hmarks hroute).labels s.dialect
  have hwritten := Address.toList_written hne' s.dialect
  unfold Settings.listPath Route.listPath Address.text
  dsimp only
  rw [hwhole, Address.toList_rooted]
  show _ ++ '/' :: (withFinalSlash (Address.written _ _)).toList = _
  rw [Address.toList_withFinalSlash hlast, ← List.cons_append, hwritten, List.append_assoc]
  rfl

end Routes

/-- The characters that mark the parts of a path in any `Dialect`. -/
def pathMarks : List Char := ['/', '{', '}', '=', ',']

theorem Settings.marks (s : Settings) : s.Marks pathMarks :=
  ⟨by decide, fun _ => by decide, by decide, by simp [pathMarks], by decide⟩

/-- `callPath` is the text of `callAddress`. -/
theorem Settings.toList_callPath {marks : List Char} {s : Settings} (hmarks : s.Marks marks)
    {model : DataModel} {call : NodeId} (hname : PlainName marks (model.node call).name)
    (hmodule : PlainName marks (model.node call).moduleName) :
    (s.callAddress (model.node call)).FreeOf marks ∧
      (s.callPath model call).toList = (s.callAddress (model.node call)).text s.dialect := by
  have hroute : ∀ segment ∈ Route.toName [] (model.node call).name (model.node call).moduleName,
      segment.Plain marks := by
    intro segment hsegment
    obtain rfl := List.mem_singleton.1 hsegment
    exact ⟨hname, hmodule, nofun⟩
  have hdata := Settings.dataAddress_freeOf hmarks hroute
  have hpath := Route.toList_path hmarks hroute (List.cons_ne_nil _ _) s.dialect
  refine ⟨⟨hmarks.roots operationsRoot (by decide), hdata.labels, hdata.names⟩, ?_⟩
  unfold Settings.callPath Address.text
  dsimp only
  rw [Address.toList_rooted, hpath, List.append_assoc]
  rfl

/-! ## Plain models -/

/-- Modules, nodes and keys have names that are each a `PlainName`; the name of an augment is the
path to its target and is left out. -/
structure DataModel.PlainNames (marks : List Char) (model : DataModel) : Prop where
  modules : ∀ n ∈ model.moduleNames, PlainName marks n
  nodes : ∀ id < model.size, (model.node id).kind.isAugment = false →
    PlainName marks (model.node id).name
  keys : ∀ id < model.size, ∀ key ∈ (model.node id).kind.keys, PlainName marks key

instance (marks : List Char) (model : DataModel) : Decidable (model.PlainNames marks) :=
  decidable_of_iff ((∀ n ∈ model.moduleNames, PlainName marks n) ∧
      (∀ id < model.size, (model.node id).kind.isAugment = false →
        PlainName marks (model.node id).name) ∧
      ∀ id < model.size, ∀ key ∈ (model.node id).kind.keys, PlainName marks key)
    ⟨fun h => ⟨h.1, h.2.1, h.2.2⟩, fun h => ⟨h.modules, h.nodes, h.keys⟩⟩

section PlainNames

variable {marks : List Char} {s : Settings} {model : DataModel}

theorem PlainName.mono {marks' : List Char} {n : String} (h : PlainName marks n)
    (hle : marks' ⊆ marks) : PlainName marks' n :=
  ⟨h.nonempty, fun _ hc hmark => h.disjoint hc (hle hmark)⟩

theorem DataModel.PlainNames.mono {marks' : List Char} (h : model.PlainNames marks)
    (hle : marks' ⊆ marks) : model.PlainNames marks' :=
  ⟨fun n hn => (h.modules n hn).mono hle, fun id hid hkind => (h.nodes id hid hkind).mono hle,
    fun id hid key hkey => (h.keys id hid key hkey).mono hle⟩

theorem Naming.numbered_disjoint {name mark : String} (hname : name.toList.Disjoint marks)
    (hmark : mark.toList.Disjoint marks) (hdigits : ∀ c ∈ marks, c.isDigit = false) (k : Nat) :
    (Naming.numbered name mark k).toList.Disjoint marks := by
  intro c hc hmem
  simp only [Naming.numbered, String.toList_append, List.mem_append] at hc
  rcases hc with (hc | hc) | hc
  · exact hname hc hmem
  · exact hmark hc hmem
  · rw [Nat.toString_eq_ofList_toDigits, String.toList_ofList] at hc
    have hdigit := Nat.isDigit_of_mem_toDigits (by decide) (by decide) hc
    rw [hdigits c hmem] at hdigit
    cases hdigit

theorem Route.parameterName_disjoint (hhyphen : '-' ∉ marks)
    (hdigits : ∀ c ∈ marks, c.isDigit = false) (taken : List String)
    {moduleName segment key : String} (hmodule : moduleName.toList.Disjoint marks)
    (hsegment : segment.toList.Disjoint marks) (hkey : key.toList.Disjoint marks) :
    (Route.parameterName taken moduleName segment key).toList.Disjoint marks := by
  have hmark : "-".toList.Disjoint marks := by
    intro c hc hmem
    obtain rfl := List.mem_singleton.1 hc
    exact hhyphen hmem
  have hafter : ∀ {n : String}, n.toList.Disjoint marks →
      (n ++ "-" ++ key).toList.Disjoint marks := by
    intro n hn
    rw [String.toList_append, String.toList_append, List.disjoint_append_left,
      List.disjoint_append_left]
    exact ⟨⟨hn, hmark⟩, hkey⟩
  unfold Route.parameterName
  dsimp only
  split
  · rename_i n hfind
    have htries := List.mem_of_find?_eq_some hfind
    simp only [List.mem_cons, List.not_mem_nil, or_false] at htries
    rcases htries with rfl | rfl | rfl
    · exact hkey
    · exact hafter hmodule
    · exact hafter hsegment
  · have hnumbered := Naming.numbered_injective (segment ++ "-" ++ key) "-"
    obtain ⟨k, hk, -⟩ := @Naming.firstFree_spec taken _ hnumbered
    rw [hk]
    exact Naming.numbered_disjoint (hafter hsegment) hmark hdigits k

theorem Route.keyParameters_disjoint (hhyphen : '-' ∉ marks)
    (hdigits : ∀ c ∈ marks, c.isDigit = false) {id : NodeId}
    (hmodule : (model.node id).moduleName.toList.Disjoint marks)
    (hname : (model.node id).name.toList.Disjoint marks) : ∀ (taken keys : List String),
    (∀ key ∈ keys, key.toList.Disjoint marks) →
      ∀ p ∈ Route.keyParameters model id taken keys, p.name.toList.Disjoint marks
  | _, [], _, p, hp => by cases hp
  | taken, key :: keys, hkeys, p, hp => by
    obtain ⟨hkey, hrest⟩ := List.forall_mem_cons.1 hkeys
    rcases List.mem_cons.1 hp with rfl | hp
    · exact Route.parameterName_disjoint hhyphen hdigits taken hmodule hname hkey
    · exact Route.keyParameters_disjoint hhyphen hdigits hmodule hname _ keys hrest p hp

/-- The `segmentOf` a container or list is `Plain`. -/
theorem DataModel.PlainNames.segment (h : model.PlainNames marks) (hm : model.Linked)
    (hmarks : s.Marks marks) {id : NodeId} (hkind : (model.node id).kind.isAugment = false)
    (hid : id < model.size) (above : Route) : (Route.segmentOf model above id).Plain marks := by
  have hname := h.nodes id hid hkind
  have hmodule := h.modules _ (hm.home id hid)
  exact ⟨hname, hmodule, Route.keyParameters_disjoint hmarks.hyphen hmarks.digits hmodule.disjoint
    hname.disjoint _ _ fun key hkey => (h.keys id hid key hkey).disjoint⟩

/-- Kinds that data shows as levels are kinds of nodes that are there. -/
theorem lt_size_of_isResource {id : NodeId} (h : (model.node id).kind.isResource = true) :
    id < model.size := by
  by_contra hlt
  rw [node_of_size_le (Nat.le_of_not_lt hlt)] at h
  cases h

theorem DataModel.Kind.isAugment_of_isResource {k : Kind} (h : k.isResource = true) :
    k.isAugment = false := by
  cases k <;> first | rfl | cases h

/-- What holds of all segments of a route and of `segmentOf` one more node holds of `toNode`. -/
theorem Route.forall_mem_toNode {P : Segment → Prop} {above : Route} {id : NodeId}
    (h : ∀ segment ∈ above, P segment) (hlast : P (segmentOf model above id)) :
    ∀ segment ∈ above.toNode model id, P segment := by
  intro segment hsegment
  rcases List.mem_append.1 hsegment with hsegment | hsegment
  · exact h segment hsegment
  · obtain rfl := List.mem_singleton.1 hsegment
    exact hlast

theorem DataModel.PlainNames.toNode (h : model.PlainNames marks) (hm : model.Linked)
    (hmarks : s.Marks marks) {id : NodeId} (hresource : (model.node id).kind.isResource = true)
    {route : Route} (hroute : ∀ segment ∈ route, segment.Plain marks) :
    ∀ segment ∈ route.toNode model id, segment.Plain marks :=
  Route.forall_mem_toNode hroute (h.segment hm hmarks (Kind.isAugment_of_isResource hresource)
    (lt_size_of_isResource hresource) route)

/-- The routes that a walk `Visits` are made of segments that are `Plain`. -/
theorem DataModel.PlainNames.visits (h : model.PlainNames marks) (hm : model.Linked)
    (hmarks : s.Marks marks) {level : Nat} {root x : NodeId} {route : Route}
    (hvisits : s.Visits model [] level root route x) :
    (∀ segment ∈ route, segment.Plain marks) ∧ ∃ above : Route, route = above.toNode model x := by
  obtain ⟨above, habove, hresource, rfl⟩ :=
    hvisits.above (R := fun route => ∀ segment ∈ route, segment.Plain marks)
      (fun _ _ hroute hid => h.toNode hm hmarks hid hroute) nofun
  exact ⟨h.toNode hm hmarks hresource habove, above, rfl⟩

end PlainNames

/-! ## Servers -/

/-- A list with two keys below a container, and an rpc. -/
def servers : List Source.Module :=
  [{ name := "net", modulePrefix := none, namespaceUri := none, revision := none,
     description := none, typedefs := [], groupings := [], augments := []
     data := [⟨.list ["name", "zone"], "server", none, none, none,
       [leafOf "name" "string", leafOf "zone" "string", containerOf "limits" [] []], []⟩]
     rpcs := [⟨"restart", none, none, none, none⟩] }]

theorem link_servers : ∃ model, link servers = .ok model :=
  exists_ok_of_isSome (by decide +kernel)

end RestSpec
