/-
# Recording the dimensions of a declaration: `add_multirange_wire` and its callers

`add_multirange_wire` stores the ranges of a declaration as the children of two attributes,
`packed_ranges` and `unpacked_ranges`, each list reversed from declaration order, so that it
is least significant first -- the order `add_multirange_attribute` builds the table in and
`convert_range` reads it.  `RecordsDims w ps us` says that `w` records in this way the
packed dimensions `ps` and the unpacked dimensions `us`, each given in declaration order, as
lists of `AST_RANGE` nodes.

Three producers record something else:

* `resolveWiretype_records_iff`: folding a typedef's range into a declaration that records
  `ps` records `ps` followed by that range exactly when `ps` reads the same reversed --
  `resolve_wiretype` reverses the recorded list a second time.  `packedArrayNet_resolved_iff`
  follows `my_t [..]..[..] x` from `process_packed_array_net` through it.
* `processArrayNet_records_iff`: an array net whose element net has `k` packed ranges
  records them exactly when `k ≤ 1`; `visit_range` hands over one `AST_MULTIRANGE` for
  several.
* `processPackedArrayTypespec_records_iff`: a packed array of an enum records its
  dimensions exactly when the enum's base type has no range, which is recorded as unpacked.

`recordedRanges_malformed` shows the three on `my_t [3:0][1:0] x`, on an array net of
`logic [3:0][1:0]`, and on a packed array of `enum logic [1:0]`.
-/
import UhdmPlugin.Flatten

namespace UhdmPlugin

open AstNode

/-! ## 1. The producers -/

/-- `visit_range` (the `BUILD_UPSTREAM` one): the single range, or one `AST_MULTIRANGE`
holding all of them. -/
def visitRange : List AstNode → Option AstNode
  | [] => none
  | [r] => some r
  | rs => some { AstNode.new .multirange with children := rs }

/-- `process_packed_array_net` (the `BUILD_UPSTREAM` branch): the only child of each element
-- the `AST_WIRETYPE` of a net of a typedef'd type -- is taken over, with the element's
`is_custom_type`, and the array's ranges are recorded as packed. -/
def processPackedArrayNet (name : String) (elements : List AstNode) (ranges : List AstNode) :
    AstNode :=
  let node := elements.foldl (fun acc e =>
    { acc with
      children := acc.children ++ (match e.children with | [c] => [c] | _ => [])
      isCustomType := e.isCustomType }) { AstNode.new .wire with str := name }
  addMultirangeWire node ranges [] true

/-- A net of an array net, as `process_array_net` reads it: a logic net with the ranges of
its `vpiRange`s, a struct net with the sanitised name of its typespec, or another net. -/
inductive ArrayNetElem
  | logicNet (ranges : List AstNode)
  | structNet (typespec : String)
  | other

/-- One net of `process_array_net`: a logic net's ranges go to the packed list through
`visit_range`; a struct net adds an `AST_WIRETYPE` child and marks the node custom-typed. -/
def arrayNetStep (acc : AstNode × List AstNode) : ArrayNetElem → AstNode × List AstNode
  | .logicNet rs => (acc.1, acc.2 ++ (visitRange rs).toList)
  | .structNet t =>
    ({ acc.1 with
        children := acc.1.children ++ [{ AstNode.new .wiretype with str := t }]
        isCustomType := true }, acc.2)
  | .other => acc

/-- `process_array_net` (the `BUILD_UPSTREAM` branch): the packed list collected from the
nets, and the array's own ranges as the unpacked list. -/
def processArrayNet (name : String) (nets : List ArrayNetElem) (ranges : List AstNode) :
    AstNode :=
  let (node, packed) := nets.foldl arrayNetStep ({ AstNode.new .wire with str := name }, [])
  addMultirangeWire node packed ranges true

/-- The ranges `process_packed_array_typespec` takes from an enum element: the unnamed
`AST_RANGE` children of its first item. -/
def enumRanges (e : AstNode) : List AstNode :=
  match e.children with
  | item :: _ => item.children.filter fun c => c.type = .range ∧ c.str = ""
  | [] => []

/-- `process_packed_array_typespec` (the `BUILD_UPSTREAM` branch): a struct element is cloned
into the node, keeping the node's name; another element lends the node its name, and an
enum's ranges are collected as unpacked.  The array's ranges are recorded as packed. -/
def processPackedArrayTypespec (name : String) (elem : Option AstNode)
    (ranges : List AstNode) : AstNode :=
  let (node, unpacked) : AstNode × List AstNode := match elem with
    | some e =>
      if e.type = .struct then ({ e with str := name }, [])
      else ({ AstNode.new .wire with str := e.str }, if e.type = .enum then enumRanges e else [])
    | none => ({ AstNode.new .wire with str := name }, [])
  addMultirangeWire node ranges unpacked true

/-! ## 2. The invariant

`add_multirange_wire`, called with the declaration's ranges in declaration order, records
them.  Every producer that passes the ranges it reads straight through -- `process_net`,
`process_port`, `process_logic_var`, `process_packed_array_net` and the others -- is an
instance of `addMultirangeWire_records`. -/

/-- `w` records the packed dimensions `ps` and the unpacked dimensions `us`, each given in
declaration order. -/
structure RecordsDims (w : AstNode) (ps us : List AstNode) : Prop where
  /-- Every recorded dimension is an `AST_RANGE`. -/
  ranges : ∀ r ∈ ps ++ us, r.type = .range
  /-- `packed_ranges` holds the packed dimensions, least significant first. -/
  packed : w.packedRanges = some ps.reverse
  /-- `unpacked_ranges` holds the unpacked dimensions, least significant first. -/
  unpacked : w.unpackedRanges = some us.reverse

/-- `add_multirange_wire`, with its default `reverse`, records the ranges it is given. -/
theorem addMultirangeWire_records (node : AstNode) {ps us : List AstNode}
    (h : ∀ r ∈ ps ++ us, r.type = .range) : RecordsDims (addMultirangeWire node ps us true) ps us :=
  ⟨h, rfl, rfl⟩

/-- `process_packed_array_net` records the array's ranges; the element's dimensions are still
behind its `AST_WIRETYPE` child. -/
theorem processPackedArrayNet_records (name : String) (elements : List AstNode)
    {ps : List AstNode} (h : ∀ r ∈ ps, r.type = .range) :
    RecordsDims (processPackedArrayNet name elements ps) ps [] :=
  addMultirangeWire_records _ (by simpa using h)

/-! ## 3. `resolve_wiretype` reverses the recorded list again -/

variable (ysWire : Scope → AstNode → AstNode)

/-- Pointing the `wiretype` attribute at the typedef leaves the children and the table. -/
theorem attachWiretype_frame {t : Option AstNode} {w w' : AstNode}
    (h : attachWiretype t w = some w') :
    w'.children = w.children ∧ w'.multirangeDimensions = w.multirangeDimensions := by
  unfold attachWiretype at h
  split at h
  · split_ifs at h
    · split at h
      · obtain rfl := Option.some.inj h; exact ⟨rfl, rfl⟩
      · cases h
    · obtain rfl := Option.some.inj h; exact ⟨rfl, rfl⟩
  · obtain rfl := Option.some.inj h; exact ⟨rfl, rfl⟩

/-- **What the fold records.**  When `simplify` leaves a range `r` in front of a declaration
with no table, `resolve_wiretype` records the packed ranges it read before, followed by `r`,
reversed, and the unpacked ranges it read before. -/
theorem resolveWiretype_fold {σ : Scope} {w w' r : AstNode} {rest : List AstNode}
    (h : resolveWiretype ysWire σ w = some w') (hs : (ysWire σ w).children = r :: rest)
    (hr : r.type = .range) (hd : (ysWire σ w).multirangeDimensions = []) :
    w'.packedRanges = some (packedOf w ++ [r]).reverse ∧
      w'.unpackedRanges = some (unpackedOf w) := by
  simp only [resolveWiretype, Option.bind_eq_bind, Option.bind_eq_some] at h
  obtain ⟨t, -, m, hm, hf⟩ := h
  obtain ⟨hmc, hmd⟩ := attachWiretype_frame hm
  rw [foldTypedefRange, hmc, hs] at hf
  simp only [hr, hmd, hd, and_self, if_true, Option.some.injEq] at hf
  subst hf
  exact ⟨rfl, rfl⟩

/-- **`resolve_wiretype` breaks the order.**  A declaration that records the packed
dimensions `ps` and gets its typedef's range `r` folded in records `ps` followed by `r`
exactly when `ps` reads the same reversed: the list read back, already least significant
first, is reversed once more. -/
theorem resolveWiretype_records_iff {σ : Scope} {w w' r : AstNode} {ps us rest : List AstNode}
    (hw : RecordsDims w ps us) (h : resolveWiretype ysWire σ w = some w')
    (hs : (ysWire σ w).children = r :: rest) (hr : r.type = .range)
    (hd : (ysWire σ w).multirangeDimensions = []) :
    RecordsDims w' (ps ++ [r]) us ↔ ps.reverse = ps := by
  obtain ⟨hp, hu⟩ := resolveWiretype_fold ysWire h hs hr hd
  have hpw : packedOf w = ps.reverse := by simp [packedOf, hw.packed]
  have huw : unpackedOf w = us.reverse := by simp [unpackedOf, hw.unpacked]
  rw [hpw, List.reverse_append, List.reverse_reverse] at hp
  rw [huw] at hu
  constructor
  · intro h'
    have := h'.packed
    rw [hp, List.reverse_append, Option.some.injEq] at this
    simpa using this.symm
  · intro hrev
    refine ⟨fun x hx => ?_, by rw [hp, List.reverse_append, hrev], hu⟩
    simp only [List.mem_append, List.mem_singleton] at hx
    rcases hx with (hx | rfl) | hx
    · exact hw.ranges x (List.mem_append_left _ hx)
    · exact hr
    · exact hw.ranges x (List.mem_append_right _ hx)

/-- A packed array net of a typedef'd type, `my_t [..]..[..] x`, recorded by
`process_packed_array_net` and resolved: it records its own dimensions followed by the
typedef's exactly when they read the same reversed -- for one or none, not for two that
differ. -/
theorem packedArrayNet_resolved_iff {σ : Scope} (name : String) (elements : List AstNode)
    {ps rest : List AstNode} {w' r : AstNode} (hps : ∀ p ∈ ps, p.type = .range)
    (h : resolveWiretype ysWire σ (processPackedArrayNet name elements ps) = some w')
    (hs : (ysWire σ (processPackedArrayNet name elements ps)).children = r :: rest)
    (hr : r.type = .range)
    (hd : (ysWire σ (processPackedArrayNet name elements ps)).multirangeDimensions = []) :
    RecordsDims w' (ps ++ [r]) [] ↔ ps.reverse = ps :=
  resolveWiretype_records_iff ysWire (processPackedArrayNet_records name elements hps) h hs hr hd

/-! ## 4. `visit_range` and enums -/

/-- `typedef logic [7:0] my_t;` -/
def typedefMyT : AstNode :=
  { AstNode.new .typedef with
    str := "\\my_t"
    children := [{ AstNode.new .wire with children := [makeRange 7 0] }] }

/-- An element net of type `my_t`. -/
def netMyT : AstNode :=
  { AstNode.new .wire with
    isCustomType := true
    children := [{ AstNode.new .wiretype with str := "\\my_t" }] }

/-- `my_t [3:0][1:0] x`, as `process_packed_array_net` builds it. -/
def packedX : AstNode := processPackedArrayNet "\\x" [netMyT] [makeRange 3 0, makeRange 1 0]

/-- What Yosys's `simplify` makes of a declaration of type `my_t`: the `AST_WIRETYPE` child
replaced by the typedef's range, and the `wiretype` attribute set. -/
def simplifyMyT (_ : Scope) (w : AstNode) : AstNode :=
  { w with wiretype := true, children := makeRange 7 0 :: w.children.drop 1 }

/-- `typedef enum logic [1:0] {A, B} e_t;`, as `process_enum_typespec` builds it: each item
holds its value and a clone of the base type's range. -/
def enumE : AstNode :=
  { AstNode.new .enum with
    str := "\\e_t"
    children := [
      { AstNode.new .enumItem with str := "\\A", children := [mkconstInt 0, makeRange 1 0] },
      { AstNode.new .enumItem with str := "\\B", children := [mkconstInt 1, makeRange 1 0] }] }

/-- `my_t [3:0][1:0] x`: resolved, it records its dimensions followed by the typedef's only if
`[3:0], [1:0]` read the same reversed. -/
theorem packedArrayNet_resolved_iff_packedX :
    ∃ w', resolveWiretype simplifyMyT [("\\my_t", typedefMyT)] packedX = some w' ∧
      (RecordsDims w' ([makeRange 3 0, makeRange 1 0] ++ [makeRange 7 0]) [] ↔
        [makeRange 3 0, makeRange 1 0].reverse = [makeRange 3 0, makeRange 1 0]) :=
  ⟨_, rfl, @packedArrayNet_resolved_iff simplifyMyT [("\\my_t", typedefMyT)] "\\x" [netMyT]
    [makeRange 3 0, makeRange 1 0] _ _ (makeRange 7 0) (by decide) rfl rfl rfl rfl⟩

/-- `my_t [3:0][1:0] x` records `[7:0], [3:0], [1:0]` and is flattened with the widths `8, 4,
2` in that order; an array net of `logic [3:0][1:0]` records one `AST_MULTIRANGE` as its
packed list; `e_t [3:0]` records the enum's `[1:0]` as unpacked. -/
theorem recordedRanges_malformed :
    (resolveWiretype simplifyMyT [("\\my_t", typedefMyT)] packedX).map (·.packedRanges) =
      some (some [makeRange 7 0, makeRange 3 0, makeRange 1 0]) ∧
    (convertPackedUnpackedRange simplifyMyT [("\\my_t", typedefMyT)] packedX).map
      (·.multirangeDimensions) = some [0, 8, 0, 4, 0, 2] ∧
    (processArrayNet "\\arr" [.logicNet [makeRange 3 0, makeRange 1 0]] [makeRange 0 1]).packedRanges =
      some [{ AstNode.new .multirange with children := [makeRange 3 0, makeRange 1 0] }] ∧
    (processPackedArrayTypespec "\\arr_t" (some enumE) [makeRange 3 0]).unpackedRanges =
      some [makeRange 1 0] :=
  ⟨rfl, rfl, rfl, rfl⟩

end UhdmPlugin
