/-
Following types hop by hop. From a type there is at most one way on: by its name to the type that
it is defined as, or over a path to the type of another leaf. The schema of a leaf is that of the
built-in type that the hops lead to if they are few enough, and text if not; and it records the
path of the first reference that is met, for a later path is replaced on the way back.
-/
import RestSpec.Proofs.DataModel.Walks
import RestSpec.Proofs.LeafType.Convert

namespace RestSpec.DataModel

open Document
open Source (TypeRef Typedef)

/-! ## Hops -/

/-- Where following types has come to: a `type`, the module `home` that its names belong to, and the
leaf `scope` that paths start from. -/
structure Stop where
  type : TypeRef
  home : String
  scope : NodeId

/-- The path of a stop whose type is a `leafref`. -/
def Stop.path? (a : Stop) : Option String :=
  if a.type.name = "leafref" then pathOf? a.type else none

/-- Where following the type of a leaf starts, with names of the module of its `origin`. -/
def firstStop? (model : DataModel) (id : NodeId) : Option Stop :=
  (model.node id).kind.leafInfo?.map fun info =>
    ⟨info.type, (model.node (model.origin id)).moduleName, id⟩

/-- One hop on: from a `leafref` to the type of its `leafTarget?`, or from a name that is not among
`builtInTypes` to the type that its `typedef?` defines, in the module of that definition. -/
def nextStop? (model : DataModel) (a : Stop) : Option Stop :=
  if a.type.name = "leafref" then
    a.path?.bind fun path => (model.leafTarget? path a.home a.scope).bind model.firstStop?
  else if (builtInTypes.lookup a.type.name).isSome then none
  else (model.typedef? a.type.name a.home).map fun (t, home) => ⟨t.type, home, a.scope⟩

/-- The stop after the given number of hops by `nextStop?`. -/
def stopAfter? (model : DataModel) : Nat → Stop → Option Stop
  | 0, a => some a
  | hops + 1, a => (model.nextStop? a).bind (model.stopAfter? hops)

/-- The path of the first `leafref` with one that is met in less than `limit` hops. -/
def FirstPath (model : DataModel) (limit : Nat) (a : Stop) (path : String) : Prop :=
  ∃ k < limit, (model.stopAfter? k a).bind Stop.path? = some path ∧
    ∀ j < k, (model.stopAfter? j a).bind Stop.path? = none

variable {model : DataModel} {limit : Nat} {a b : Stop} {path : String}

theorem stopAfter?_succ (h : model.nextStop? a = some b) (k : Nat) :
    model.stopAfter? (k + 1) a = model.stopAfter? k b := by
  rw [stopAfter?, h, Option.bind_some]

theorem stopAfter?_of_end (h : model.nextStop? a = none) (k : Nat) :
    model.stopAfter? (k + 1) a = none := by
  rw [stopAfter?, h, Option.bind_none]

theorem firstPath_succ : model.FirstPath (limit + 1) a path ↔
    a.path? = some path ∨
      a.path? = none ∧ ∃ b, model.nextStop? a = some b ∧ model.FirstPath limit b path := by
  constructor
  · rintro ⟨k, hk, hpath, hbefore⟩
    cases k with
    | zero => exact .inl hpath
    | succ k =>
      refine .inr ⟨hbefore 0 (Nat.succ_pos k), ?_⟩
      cases hnext : model.nextStop? a with
      | none =>
        rw [stopAfter?_of_end hnext] at hpath
        cases hpath
      | some b =>
        rw [stopAfter?_succ hnext] at hpath
        refine ⟨b, rfl, k, Nat.lt_of_succ_lt_succ hk, hpath, fun j hj => ?_⟩
        rw [← stopAfter?_succ hnext]
        exact hbefore (j + 1) (Nat.succ_lt_succ hj)
  · rintro (hpath | ⟨hnone, b, hnext, k, hk, hpath, hbefore⟩)
    · exact ⟨0, Nat.succ_pos limit, hpath, fun j hj => absurd hj (Nat.not_lt_zero j)⟩
    · refine ⟨k + 1, Nat.succ_lt_succ hk, ?_, fun j hj => ?_⟩
      · rw [stopAfter?_succ hnext, hpath]
      · cases j with
        | zero => exact hnone
        | succ j =>
          rw [stopAfter?_succ hnext]
          exact hbefore j (Nat.lt_of_succ_lt_succ hj)

/-! ## One hop -/

/-- What one hop makes of a schema: `type` and `format` are taken over, and a path of the stop
itself goes in place of one that is recorded in `extensions`. -/
structure Resumes (a : Stop) (s s' : Schema) : Prop where
  type : s'.type = s.type
  format : s'.format = s.format
  extensions : s'.extensions =
    match a.path? with
    | some path => Entries.insert pathExtension (.str path) s.extensions
    | none => s.extensions

theorem Resumes.restrict {s s' : Schema} (h : Resumes a s s') (type : TypeRef) :
    Resumes a s (restrict type s') := by
  cases type with
  | named name => exact h
  | restricted => exact ⟨h.type, h.format, h.extensions⟩

theorem resumes_withExtension (h : a.path? = some path) (s : Schema) :
    Resumes a s (s.withExtension pathExtension (.str path)) :=
  ⟨rfl, rfl, by rw [h]; rfl⟩

theorem resumes_of_path?_eq_none (h : a.path? = none) (s : Schema) (description : Option String)
    (default : Option Json) :
    Resumes a s { s with description := description, default := default } :=
  ⟨rfl, rfl, by rw [h]⟩

/-- What a type that leads nowhere says of its values: `builtIn?`, or else `textSchema`. -/
def Stop.own (a : Stop) : Schema := (builtIn? a.type.name).getD textSchema

theorem schemaOfType_succ (model : DataModel) (limit : Nat) (a : Stop) :
    Resumes a
      (match model.nextStop? a with
      | some b => model.schemaOfType limit b.type b.home b.scope
      | none => a.own)
      (model.schemaOfType (limit + 1) a.type a.home a.scope) := by
  rw [schemaOfType]
  refine Resumes.restrict ?_ a.type
  by_cases hname : a.type.name = "leafref"
  · have hpath? : a.path? = pathOf? a.type := if_pos hname
    have hown : a.own = textSchema := by unfold Stop.own; rw [hname]; rfl
    unfold nextStop?
    rw [if_pos hname, if_pos hname, hpath?, hown]
    cases hpath : pathOf? a.type with
    | none => exact resumes_of_path?_eq_none (hpath?.trans hpath) textSchema none none
    | some path =>
      have hextends := resumes_withExtension (hpath?.trans hpath)
      dsimp only
      rw [Option.bind_some]
      cases model.leafTarget? path a.home a.scope with
      | none => exact hextends textSchema
      | some target =>
        dsimp only
        rw [Option.bind_some]
        unfold firstStop?
        cases (model.node target).kind.leafInfo? with
        | none => exact hextends textSchema
        | some info =>
          obtain ⟨htype, hformat, hextensions⟩ := hextends { model.schemaOfType limit info.type
            (model.node (model.origin target)).moduleName target with
              description := none, default := none }
          exact ⟨htype, hformat, hextensions⟩
  · have hpath? : a.path? = none := if_neg hname
    unfold nextStop? Stop.own builtIn?
    rw [if_neg hname, if_neg hname]
    cases builtInTypes.lookup a.type.name with
    | some entry => exact resumes_of_path?_eq_none hpath? _ none none
    | none =>
      cases model.typedef? a.type.name a.home with
      | none => exact resumes_of_path?_eq_none hpath? textSchema none none
      | some found =>
        obtain ⟨t, home⟩ := found
        exact resumes_of_path?_eq_none hpath? _ _ _

/-! ## All hops -/

/-- What the schema says of a leaf whose type is followed over less than `limit` hops: the `type`
and `format` of the built-in type that is reached, and in `extensions` the `FirstPath` that is
met. -/
structure Follows (model : DataModel) (limit : Nat) (a : Stop) (s : Schema) : Prop where
  builtIn : ∀ k < limit, ∀ b type format, model.stopAfter? k a = some b →
    builtInTypes.lookup b.type.name = some (type, format) →
      s.type = some type ∧ s.format = format
  text : (∀ k < limit, ∀ b, model.stopAfter? k a = some b →
    builtInTypes.lookup b.type.name = none) → s.type = some .string ∧ s.format = none
  path : ∀ path, model.FirstPath limit a path → s.extensions = [(pathExtension, .str path)]
  pathless : (∀ k < limit, (model.stopAfter? k a).bind Stop.path? = none) → s.extensions = []

theorem Follows.extensions_cases {s : Schema} (h : model.Follows limit a s) :
    s.extensions = [] ∨ ∃ path, s.extensions = [(pathExtension, .str path)] := by
  by_cases hmet : ∃ k, k < limit ∧ ((model.stopAfter? k a).bind Stop.path?).isSome
  · -- the first of the stops with a path
    classical
    obtain ⟨hk, hsome⟩ := Nat.find_spec hmet
    obtain ⟨path, hpath⟩ := Option.isSome_iff_exists.1 hsome
    refine .inr ⟨path, h.path path ⟨Nat.find hmet, hk, hpath, fun j hj => ?_⟩⟩
    have hnot := Nat.find_min hmet hj
    have hlt := hj.trans hk
    simpa [hlt] using hnot
  · push Not at hmet
    exact .inl (h.pathless fun k hk => Option.not_isSome_iff_eq_none.1 (hmet k hk))

/-- A type among `builtInTypes` leads nowhere by `nextStop?`. -/
theorem lookup_of_nextStop? (h : model.nextStop? a = some b) :
    builtInTypes.lookup a.type.name = none := by
  unfold nextStop? at h
  split at h
  · rename_i hname
    rw [hname]
    decide
  · split at h
    · cases h
    · rename_i hlookup
      exact Option.not_isSome_iff_eq_none.1 hlookup

theorem Stop.own_of_lookup {type : ValueType} {format : Option String}
    (h : builtInTypes.lookup a.type.name = some (type, format)) :
    a.own = { type := some type, format := format } := by
  unfold Stop.own builtIn?
  rw [h]
  rfl

theorem Stop.own_of_lookup_eq_none (h : builtInTypes.lookup a.type.name = none) :
    a.own = textSchema := by
  unfold Stop.own builtIn?
  rw [h]
  rfl

theorem Stop.extensions_own (a : Stop) : a.own.extensions = [] := by
  cases h : builtInTypes.lookup a.type.name with
  | none => rw [own_of_lookup_eq_none h]; rfl
  | some entry => rw [own_of_lookup h]

/-- One hop before what `Follows` tells of, if the schema `Resumes` the one that is made from the
next stop. -/
theorem Follows.hop {s s' : Schema} (h : model.Follows limit b s)
    (hnext : model.nextStop? a = some b) (hs : Resumes a s s') :
    model.Follows (limit + 1) a s' := by
  obtain ⟨htype, hformat, hextensions⟩ := hs
  refine ⟨fun k hk c type format hc hlookup => ?_, fun hnone => ?_, fun path hpath => ?_,
    fun hnone => ?_⟩
  · rw [htype, hformat]
    cases k with
    | zero =>
      cases hc
      rw [lookup_of_nextStop? hnext] at hlookup
      cases hlookup
    | succ k =>
      rw [stopAfter?_succ hnext] at hc
      exact h.builtIn k (Nat.lt_of_succ_lt_succ hk) c type format hc hlookup
  · rw [htype, hformat]
    refine h.text fun k hk c hc => hnone (k + 1) (Nat.succ_lt_succ hk) c ?_
    rw [stopAfter?_succ hnext, hc]
  · rcases firstPath_succ.1 hpath with hown | ⟨hown, c, hc, hlater⟩
    · -- whatever has been recorded is replaced
      rw [hextensions, hown]
      rcases h.extensions_cases with hnil | ⟨later, hlater⟩
      · rw [hnil]
        rfl
      · rw [hlater]
        exact if_pos rfl
    · obtain rfl := Option.some.inj (hnext.symm.trans hc)
      rw [hextensions, hown]
      exact h.path path hlater
  · have hown : a.path? = none := hnone 0 (Nat.succ_pos limit)
    rw [hextensions, hown]
    refine h.pathless fun k hk => ?_
    rw [← stopAfter?_succ hnext]
    exact hnone (k + 1) (Nat.succ_lt_succ hk)

/-- `Follows` ends at a stop where `nextStop?` leads nowhere on. -/
theorem follows_own {s : Schema} (hnext : model.nextStop? a = none) (hs : Resumes a a.own s) :
    model.Follows (limit + 1) a s := by
  obtain ⟨htype, hformat, hextensions⟩ := hs
  rw [a.extensions_own] at hextensions
  refine ⟨fun k hk c type format hc hlookup => ?_, fun hnone => ?_, fun path hpath => ?_,
    fun hnone => ?_⟩
  · cases k with
    | zero =>
      cases hc
      rw [htype, hformat, Stop.own_of_lookup hlookup]
      exact ⟨rfl, rfl⟩
    | succ k =>
      rw [stopAfter?_of_end hnext] at hc
      cases hc
  · rw [htype, hformat, Stop.own_of_lookup_eq_none (hnone 0 (Nat.succ_pos limit) a rfl)]
    exact ⟨rfl, rfl⟩
  · rcases firstPath_succ.1 hpath with hown | ⟨-, c, hc, -⟩
    · rw [hextensions, hown]
      rfl
    · rw [hnext] at hc
      cases hc
  · have hown : a.path? = none := hnone 0 (Nat.succ_pos limit)
    rw [hextensions, hown]

theorem follows_schemaOfType (model : DataModel) (limit : Nat) (a : Stop) :
    model.Follows limit a (model.schemaOfType limit a.type a.home a.scope) := by
  induction limit generalizing a with
  | zero =>
    refine ⟨fun k hk => absurd hk (Nat.not_lt_zero k), fun _ => ⟨rfl, rfl⟩, ?_, fun _ => rfl⟩
    rintro path ⟨k, hk, -⟩
    exact absurd hk (Nat.not_lt_zero k)
  | succ limit ih =>
    have hs := schemaOfType_succ model limit a
    cases hnext : model.nextStop? a with
    | some b =>
      rw [hnext] at hs
      exact (ih b).hop hnext hs
    | none =>
      rw [hnext] at hs
      exact follows_own hnext hs

/-! ## Leaves -/

/-- `convertLeaf`, whatever types refer to, in circles or not. Every walk for the schema of a leaf
comes to its end; the schema is `Scalar`; and it `Follows` at most 32 hops, to the built-in type
they lead to and the path they meet first. -/
theorem convertLeaf_follows {sources : List Source.Module} (h : link sources = .ok model)
    (id : NodeId) :
    model.Walkable ∧ Scalar (model.convertLeaf id) ∧
    (∀ a, model.firstStop? id = some a → model.Follows (32 + 1) a (model.convertLeaf id)) ∧
    (model.firstStop? id = none → model.convertLeaf id = textSchema) := by
  refine ⟨(linked_of_link h).1.walkable, scalar_convertLeaf model id, fun a ha => ?_,
    fun hnone => ?_⟩
  · obtain ⟨info, hinfo, rfl⟩ := Option.map_eq_some_iff.1 ha
    unfold convertLeaf
    rw [hinfo]
    exact follows_schemaOfType model typeLimit _
  · unfold convertLeaf
    rw [Option.map_eq_none_iff.1 hnone]

/-- The statement of a leaf of type `leafref` with a path, for examples. -/
def pointerTo (name path : String) : Source.Statement :=
  ⟨.leaf ⟨.restricted "leafref" [] (some path) none [], false, none⟩, name, none, none, none, [], []⟩

/-- A leaf that leads to a built-in type over two leafrefs and two typedefs, and two leafrefs that
refer to each other. -/
def pointing : List Source.Module :=
  [{ name := "net", modulePrefix := none, namespaceUri := none, revision := none,
     description := none, groupings := [], rpcs := [], augments := []
     typedefs := [⟨"percent", .named "share", none, none⟩, ⟨"share", .named "uint8", none, none⟩]
     data := [containerOf "box" [pointerTo "load" "../limit", pointerTo "limit" "../rate",
       leafOf "rate" "percent", pointerTo "left" "../right", pointerTo "right" "../left"] []] }]

theorem convertLeaf_follows_pointing : ∃ model, link pointing = .ok model ∧
    (model.convertLeaf 1).type = some .integer ∧ (model.convertLeaf 1).format = some "int32" ∧
    (model.convertLeaf 1).extensions = [("x-path", .str "../limit")] ∧
    (model.convertLeaf 4).type = some .string ∧
    (model.convertLeaf 4).extensions = [("x-path", .str "../right")] := by
  obtain ⟨model, h⟩ := exists_ok_of_isSome (x := link pointing) (by decide +kernel)
  have hfirst := map_of_ok h (f := fun model =>
    ((model.firstStop? 1).bind Stop.path?, (model.firstStop? 4).bind Stop.path?,
      ((model.firstStop? 1).bind (model.stopAfter? 4)).map fun a => a.type.name,
      (List.range 33).all fun k => ((model.firstStop? 4).bind (model.stopAfter? k)).all
        fun a => (builtInTypes.lookup a.type.name).isNone))
    (b := (some "../limit", some "../right", some "uint8", true)) (by decide +kernel)
  simp only [Prod.mk.injEq] at hfirst
  obtain ⟨hload, hleft, hreached, hcircle⟩ := hfirst
  obtain ⟨load, hloadStop, hloadPath⟩ := Option.bind_eq_some_iff.1 hload
  obtain ⟨left, hleftStop, hleftPath⟩ := Option.bind_eq_some_iff.1 hleft
  rw [hloadStop, Option.bind_some] at hreached
  rw [hleftStop] at hcircle
  obtain ⟨last, hlast, hname⟩ := Option.map_eq_some_iff.1 hreached
  have hfollows := (convertLeaf_follows h 1).2.2.1 load hloadStop
  have hfollows' := (convertLeaf_follows h 4).2.2.1 left hleftStop
  obtain ⟨htype, hformat⟩ := hfollows.builtIn 4 (by decide) last .integer (some "int32") hlast
    (by rw [hname]; rfl)
  have hnever : ∀ k < 33, ∀ b, model.stopAfter? k left = some b →
      builtInTypes.lookup b.type.name = none := by
    intro k hk b hb
    have hstop := List.all_eq_true.1 hcircle k (List.mem_range.2 hk)
    rw [Option.bind_some, hb] at hstop
    exact Option.isNone_iff_eq_none.1 hstop
  exact ⟨model, h, htype, hformat,
    hfollows.path _ (firstPath_succ.2 (.inl hloadPath)), (hfollows'.text hnever).1,
    hfollows'.path _ (firstPath_succ.2 (.inl hleftPath))⟩

end RestSpec.DataModel
