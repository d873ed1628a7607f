/-
# The flattening table and access rewriting: `add_multirange_attribute`, `convert_range`

A declaration with several dimensions is given one flat range.  `add_multirange_attribute`
records, for every range of the `packed_ranges` and then the `unpacked_ranges` attribute
(each list least significant first, as `add_multirange_wire` stores it), the pair
`min, max - min + 1` in `multirange_dimensions` and Yosys's `range_swapped` flag (the range
was declared ascending) in `multirange_swapped`.  `convert_range` then rewrites an access
`x[s₀]...[s_{m-1}]` into one range, from the last selector outwards: selector `i` addresses
table dimension `k-1-i`, is complemented when that dimension is swapped, and is scaled by
`single_elem_size[i+1]`, a running product read off the table.

The specification is SystemVerilog's layout (`svBits`): the first unpacked dimension is
most significant, an index `x` of a dimension declared `[l:r]` sits at position `|x - r|`,
and a dimension's stride is the product of the widths of the dimensions inside it.

* `convertRangeFrom_eval` is what the code computes, for every table: the strides are the
  running products of `width - min`, and a swapped dimension complements an index against
  `width - min - 1`.
* `convertRange_zero_based` is the consequence: on tables whose dimensions all start at 0
  the rewritten range is exactly the row-major interval of the access.
* `convertRange_offset_bug` evaluates the code on `logic [7:4][1:0] x` at `x[5][1]`, where
  the stride and the offset both ignore the lower bound `4`.
-/
import Mathlib.Algebra.BigOperators.Group.List
import Mathlib.Algebra.Order.Ring.Int
import Mathlib.Tactic.Ring
import Mathlib.Tactic.Zify
import UhdmPlugin.Ast

namespace UhdmPlugin

open AstNode

/-! ## 1. Recording the dimensions -/

/-- `add_multirange_wire`: stores both range lists as attributes, reversed by default, so
that each list is least significant first. -/
def addMultirangeWire (node : AstNode) (packedRanges unpackedRanges : List AstNode)
    (reverse : Bool) : AstNode :=
  { node with
    packedRanges := some (if reverse then packedRanges.reverse else packedRanges)
    unpackedRanges := some (if reverse then unpackedRanges.reverse else unpackedRanges) }

/-- The bounds Yosys's `simplify` folds a range to, `[children[0] : children[1]]`, after a
one-child range was given a copy of its child.  The bounds are taken as that fold leaves
them; `none` where they are not constants, where the two `log_assert`s fail. -/
def rangeBounds (r : AstNode) : Option (Int × Int) :=
  match r.children with
  | [a] => if a.type = .constant then some (a.integer, a.integer) else none
  | a :: b :: _ =>
    if a.type = .constant ∧ b.type = .constant then some (a.integer, b.integer) else none
  | [] => none

/-- The width of a dimension declared `[a:b]`. -/
def width (p : Int × Int) : Int := max p.1 p.2 - min p.1 p.2 + 1

/-- The two table entries of a dimension declared `[a:b]`: `min`, then `max - min + 1`. -/
def dimEntries (p : Int × Int) : List Int := [min p.1 p.2, width p]

/-- The width `add_multirange_attribute` computes, `max - min + 1` of the two bounds read as
`uint32_t`, stored into the `int` table. -/
def tableWidth (p : Int × Int) : Int :=
  toInt32 (max (u32 p.1) (u32 p.2) - min (u32 p.1) (u32 p.2) + 1)

/-- The two entries `add_multirange_attribute` pushes for a range folded to `p`: the `min` of
the `uint32_t` bounds stored into the `int` table, then `tableWidth`. -/
def tableEntries (p : Int × Int) : List Int := [toInt32 (min (u32 p.1) (u32 p.2)), tableWidth p]

/-- `add_multirange_attribute`: appends each range's entries and swapped flag to the
table and returns the `size_t` product of the widths it stored. -/
def addMultirangeAttribute (w : AstNode) : List AstNode → Option (AstNode × Nat)
  | [] => some (w, 1)
  | r :: rs => do
    let p ← rangeBounds r
    let w := { w with
      multirangeDimensions := w.multirangeDimensions ++ tableEntries p
      multirangeSwapped := w.multirangeSwapped ++ [decide (p.1 < p.2)] }
    let (w, size) ← addMultirangeAttribute w rs
    return (w, toSizeT (tableWidth p) * size % 2 ^ 64)

/-- The table a list of folded bounds gives, least significant dimension first. -/
def dimsOf (ps : List (Int × Int)) : List Int := ps.flatMap dimEntries

/-- The `multirange_swapped` flags a list of folded bounds gives. -/
def swappedOf (ps : List (Int × Int)) : List Bool := ps.map fun p => decide (p.1 < p.2)

/-- The products `convert_range` pushes onto `single_elem_size`: `acc` times
`dims[j+1] - dims[j]`, pair by pair. -/
def elemSizes (acc : Int) : List Int → List Int
  | m :: w :: rest => (acc * (w - m)) :: elemSizes (acc * (w - m)) rest
  | _ => []

/-- `single_elem_size`, after its `std::reverse`. -/
def singleElemSize (dims : List Int) : List Int := (1 :: elemSizes 1 dims).reverse

/-- Element `i` counted from the end, `l[l.size() - i - 1]`; `none` where the index would
wrap. -/
def rget {α : Type} (l : List α) (i : Nat) : Option α :=
  if i < l.length then l[l.length - 1 - i]? else none

/-- A selector's two bounds as `convert_range` reads them: `children[0]` and `children[1]`
of a part-select, `children[0]` twice otherwise. -/
def selectorChildren (sel : AstNode) : Option (AstNode × AstNode) :=
  match sel.children with
  | [a, b] => some (a, b)
  | a :: _ => some (a, a)
  | [] => none

/-- The two bound expressions of selector `i` before scaling: `children[0]` and
`children[1]` of a part-select, the index twice otherwise, each complemented against
`dims[left_idx] - dims[right_idx] - 1` when the dimension is marked swapped. -/
def selectorBounds (w sel : AstNode) (i : Nat) : Option (AstNode × AstNode) := do
  let (l, r) ← selectorChildren sel
  if w.multirangeSwapped = [] then return (l, r)
  let sw ← rget w.multirangeSwapped i
  if !sw then return (l, r)
  let hi ← rget w.multirangeDimensions (2 * i)
  let lo ← rget w.multirangeDimensions (2 * i + 1)
  return (node2 .sub (mkconstInt (hi - lo - 1)) l, node2 .sub (mkconstInt (hi - lo - 1)) r)

/-- Selector `i` scaled by `single_elem_size[i+1]`:
`[(left + 1) * size - 1 : right * size]`. -/
def selectorRange (w sel : AstNode) (i : Nat) : Option (AstNode × AstNode) := do
  let (l, r) ← selectorBounds w sel i
  let s ← (singleElemSize w.multirangeDimensions)[i + 1]?
  return (node2 .sub (node2 .mul (node2 .add l (mkconstInt 1)) (mkconstInt s)) (mkconstInt 1),
    node2 .mul r (mkconstInt s))

/-- The recursion of `convert_range` from selector `i` on, for an access against a
declaration with `k` ranges.  The inner result is computed first; an outer selector keeps
only its scaled right bound, added to both bounds of the inner range. -/
def convertRangeFrom (w : AstNode) (k : Nat) : Nat → List AstNode → Option (AstNode × AstNode)
  | _, [] => none
  | i, [sel] => if i < k then selectorRange w sel i else none
  | i, sel :: rest => do
    guard (i < k)
    let (rl, rr) ← convertRangeFrom w k (i + 1) rest
    let (_, r) ← selectorRange w sel i
    let right := node2 .add r rr
    return (node2 .sub (node2 .add right rl) rr, right)

/-- `convert_range(id, packed_ranges, unpacked_ranges, i)` against the declaration `w`
that `current_scope` maps `id` to.  Its `log_assert`s are the guards; the whole-wire branch
for an identifier without children sits behind the assertion that it has children, so it
is never taken. -/
def convertRange (id : AstNode) (packedRanges unpackedRanges : List AstNode) (w : AstNode)
    (i : Nat) : Option AstNode := do
  guard (w.multirangeDimensions ≠ [])
  guard (!id.children.isEmpty)
  let (l, r) ← convertRangeFrom w (unpackedRanges.length + packedRanges.length) i
    (id.children.drop i)
  return node2 .range l r

/-! ## 3. The table a list of bounds gives -/

/-- The factor `convert_range` multiplies in for a dimension, `dims[j+1] - dims[j]`: its
width minus its lower bound. -/
def codeFactor (p : Int × Int) : Int := width p - min p.1 p.2

/-- The product of the factors of the `d` innermost dimensions. -/
def codeStride (ps : List (Int × Int)) (d : Nat) : Int := ((ps.take d).map codeFactor).prod

theorem dimsOf_cons (p : Int × Int) (ps : List (Int × Int)) :
    dimsOf (p :: ps) = min p.1 p.2 :: width p :: dimsOf ps := by
  simp [dimsOf, dimEntries]

@[simp] theorem length_dimsOf (ps : List (Int × Int)) : (dimsOf ps).length = 2 * ps.length := by
  induction ps with
  | nil => rfl
  | cons p ps ih => simp [dimsOf_cons, ih]; omega

theorem dimsOf_getElem?_even : ∀ (ps : List (Int × Int)) (d : Nat),
    (dimsOf ps)[2 * d]? = ps[d]?.map fun p => min p.1 p.2
  | [], _ => by simp [dimsOf]
  | p :: ps, 0 => by simp [dimsOf_cons]
  | p :: ps, d + 1 => by
    rw [dimsOf_cons, show 2 * (d + 1) = 2 * d + 1 + 1 by omega, List.getElem?_cons_succ,
      List.getElem?_cons_succ, dimsOf_getElem?_even ps d]
    simp

theorem dimsOf_getElem?_odd : ∀ (ps : List (Int × Int)) (d : Nat),
    (dimsOf ps)[2 * d + 1]? = ps[d]?.map width
  | [], _ => by simp [dimsOf]
  | p :: ps, 0 => by simp [dimsOf_cons]
  | p :: ps, d + 1 => by
    rw [dimsOf_cons, show 2 * (d + 1) + 1 = 2 * d + 1 + 1 + 1 by omega, List.getElem?_cons_succ,
      List.getElem?_cons_succ, dimsOf_getElem?_odd ps d]
    simp

section Table

variable {ps : List (Int × Int)} {i : Nat}

/-- `dims[left_idx]`, `left_idx = size - 2i - 1`, is the width of dimension `k-1-i`. -/
theorem rget_dimsOf_even (hi : i < ps.length) :
    rget (dimsOf ps) (2 * i) = ps[ps.length - 1 - i]?.map width := by
  rw [rget, if_pos (by simp; omega), length_dimsOf,
    show 2 * ps.length - 1 - 2 * i = 2 * (ps.length - 1 - i) + 1 by omega, dimsOf_getElem?_odd]

/-- `dims[right_idx]`, `right_idx = size - 2i - 2`, is its lower bound. -/
theorem rget_dimsOf_odd (hi : i < ps.length) :
    rget (dimsOf ps) (2 * i + 1) = ps[ps.length - 1 - i]?.map fun p => min p.1 p.2 := by
  rw [rget, if_pos (by simp; omega), length_dimsOf,
    show 2 * ps.length - 1 - (2 * i + 1) = 2 * (ps.length - 1 - i) by omega, dimsOf_getElem?_even]

theorem rget_swappedOf (hi : i < ps.length) :
    rget (swappedOf ps) i = ps[ps.length - 1 - i]?.map fun p => decide (p.1 < p.2) := by
  simp [rget, swappedOf, hi]

theorem elemSizes_getElem? (acc : Int) : ∀ (ps : List (Int × Int)) (j : Nat), j ≤ ps.length →
    (acc :: elemSizes acc (dimsOf ps))[j]? = some (acc * codeStride ps j)
  | [], 0, _ => by simp [codeStride]
  | p :: ps, 0, _ => by simp [codeStride]
  | p :: ps, j + 1, hj => by
    rw [dimsOf_cons, elemSizes, List.getElem?_cons_succ,
      elemSizes_getElem? (acc * (width p - min p.1 p.2)) ps j (by simp at hj; omega)]
    simp [codeStride, codeFactor, mul_assoc]

theorem length_elemSizes (acc : Int) : ∀ ps : List (Int × Int),
    (elemSizes acc (dimsOf ps)).length = ps.length
  | [] => by simp [dimsOf, elemSizes]
  | p :: ps => by rw [dimsOf_cons, elemSizes, List.length_cons, length_elemSizes, List.length_cons]

/-- `single_elem_size[i+1]` is the product of the factors of the `k-1-i` dimensions inside
the one selector `i` addresses. -/
theorem singleElemSize_getElem? (hi : i < ps.length) :
    (singleElemSize (dimsOf ps))[i + 1]? = some (codeStride ps (ps.length - 1 - i)) := by
  rw [singleElemSize, List.getElem?_reverse (by simp [length_elemSizes]; omega)]
  simp only [List.length_cons, length_elemSizes]
  rw [show ps.length + 1 - 1 - (i + 1) = ps.length - 1 - i by omega,
    elemSizes_getElem? 1 ps _ (by omega), one_mul]

end Table

/-! ## 4. What `convert_range` computes, on every table -/

/-- What `convert_range` makes of an index value `v` of a dimension declared `p`: it is
complemented against `width - min - 1` when the dimension is swapped (declared ascending). -/
def codeIndex (p : Int × Int) (v : Int) : Int := if p.1 < p.2 then codeFactor p - 1 - v else v

section Code

variable (ρ : AstNode → Int) {w : AstNode} {ps : List (Int × Int)} {i : Nat}

theorem selectorBounds_eval {sel a b : AstNode} {p : Int × Int}
    (hd : w.multirangeDimensions = dimsOf ps) (hs : w.multirangeSwapped = swappedOf ps)
    (hi : i < ps.length) (hp : ps[ps.length - 1 - i]? = some p)
    (hc : selectorChildren sel = some (a, b)) :
    ∃ l r, selectorBounds w sel i = some (l, r) ∧
      eval ρ l = codeIndex p (eval ρ a) ∧ eval ρ r = codeIndex p (eval ρ b) := by
  have hne : swappedOf ps ≠ [] := by
    intro h
    simp [swappedOf] at h
    simp [h] at hi
  by_cases hsw : p.1 < p.2
  · refine ⟨node2 .sub (mkconstInt (width p - min p.1 p.2 - 1)) a,
      node2 .sub (mkconstInt (width p - min p.1 p.2 - 1)) b, ?_, ?_, ?_⟩ <;>
      simp [selectorBounds, hc, hs, hd, hne, rget_swappedOf hi, rget_dimsOf_even hi,
        rget_dimsOf_odd hi, hp, hsw, codeIndex, codeFactor]
  · refine ⟨a, b, ?_, ?_, ?_⟩ <;> simp [selectorBounds, hc, hs, hne, rget_swappedOf hi, hp, hsw,
      codeIndex]

theorem selectorRange_eval {sel a b : AstNode} {p : Int × Int}
    (hd : w.multirangeDimensions = dimsOf ps) (hs : w.multirangeSwapped = swappedOf ps)
    (hi : i < ps.length) (hp : ps[ps.length - 1 - i]? = some p)
    (hc : selectorChildren sel = some (a, b)) :
    ∃ L R, selectorRange w sel i = some (L, R) ∧
      eval ρ L = (codeIndex p (eval ρ a) + 1) * codeStride ps (ps.length - 1 - i) - 1 ∧
      eval ρ R = codeIndex p (eval ρ b) * codeStride ps (ps.length - 1 - i) := by
  obtain ⟨l, r, hb, hl, hr⟩ := selectorBounds_eval ρ hd hs hi hp hc
  let S := mkconstInt (codeStride ps (ps.length - 1 - i))
  refine ⟨node2 .sub (node2 .mul (node2 .add l (mkconstInt 1)) S) (mkconstInt 1),
    node2 .mul r S, ?_, ?_, ?_⟩ <;>
    simp [S, selectorRange, hb, hd, singleElemSize_getElem? hi, hl, hr]

/-- An outer selector adds its scaled right bound to both bounds of the inner range. -/
theorem convertRangeFrom_cons_eval {k : Nat} {sel : AstNode} {rest : List AstNode}
    {L R L' R' : AstNode} (hk : i < k) (hrest : rest ≠ [])
    (hin : convertRangeFrom w k (i + 1) rest = some (L', R'))
    (hsel : selectorRange w sel i = some (L, R)) :
    ∃ L'' R'', convertRangeFrom w k i (sel :: rest) = some (L'', R'') ∧
      eval ρ L'' = eval ρ R + eval ρ L' ∧ eval ρ R'' = eval ρ R + eval ρ R' := by
  obtain ⟨s, rest, rfl⟩ := List.exists_cons_of_ne_nil hrest
  refine ⟨node2 .sub (node2 .add (node2 .add R R') L') R', node2 .add R R', ?_, ?_, rfl⟩
  · simp [convertRangeFrom, hk, hin, hsel]
  · simp; omega

/-- A selector with a child, at a position the table has, always gets its range. -/
theorem selectorRange_exists {sel : AstNode} (hd : w.multirangeDimensions = dimsOf ps)
    (hs : w.multirangeSwapped = swappedOf ps) (hi : i < ps.length) (hsel : sel.children ≠ []) :
    ∃ L R, selectorRange w sel i = some (L, R) := by
  obtain ⟨a, b, hc⟩ : ∃ a b, selectorChildren sel = some (a, b) := by
    unfold selectorChildren
    split
    · exact ⟨_, _, rfl⟩
    · exact ⟨_, _, rfl⟩
    · contradiction
  obtain ⟨L, R, h, -⟩ := selectorRange_eval (fun _ => 0) hd hs hi
    (List.getElem?_eq_getElem (show ps.length - 1 - i < ps.length by omega)) hc
  exact ⟨L, R, h⟩

/-- **`convert_range` returns** on an access of at most as many selectors as the table has
dimensions, each with a child. -/
theorem convertRangeFrom_exists (hd : w.multirangeDimensions = dimsOf ps)
    (hs : w.multirangeSwapped = swappedOf ps) :
    ∀ (i : Nat) (sels : List AstNode), sels ≠ [] → i + sels.length ≤ ps.length →
      (∀ s ∈ sels, s.children ≠ []) → ∃ L R, convertRangeFrom w ps.length i sels = some (L, R)
  | _, [], h, _, _ => absurd rfl h
  | i, [s], _, hlen, hch => by
    simp only [List.length_singleton] at hlen
    simpa [convertRangeFrom, show i < ps.length by omega] using
      selectorRange_exists hd hs (show i < ps.length by omega) (hch s (List.mem_singleton_self s))
  | i, s :: s' :: rest, _, hlen, hch => by
    simp only [List.length_cons] at hlen
    obtain ⟨L', R', hin⟩ := convertRangeFrom_exists hd hs (i + 1) (s' :: rest) (List.cons_ne_nil _ _)
      (by simp; omega) fun t ht => hch t (List.mem_cons_of_mem s ht)
    obtain ⟨L, R, hsel⟩ := selectorRange_exists hd hs (show i < ps.length by omega)
      (hch s (List.mem_cons_self s _))
    exact ⟨node2 .sub (node2 .add (node2 .add R R') L') R', node2 .add R R',
      by simp [convertRangeFrom, show i < ps.length by omega, hin, hsel]⟩

end Code

/-! ## 5. SystemVerilog's layout, and where the code meets it -/

/-- The stride of table dimension `d`: the product of the widths of the `d` dimensions
inside it. -/
def stride (ps : List (Int × Int)) (d : Nat) : Int := ((ps.take d).map width).prod

/-- The position of index `x` in a dimension declared `[l:r]`: `|x - r|`. -/
def svPos (p : Int × Int) (x : Int) : Int := ((x - p.2).natAbs : Int)

/-- The dimension selector `i` addresses: table dimension `k-1-i`. -/
def dimAt (ps : List (Int × Int)) (i : Nat) : Int × Int := ps.getD (ps.length - 1 - i) (0, 0)

/-- SystemVerilog's row-major interval `(msb, lsb)` of the bits an access selects from
selector `i` on: the single indices `xs`, then `[a:b]` (a bit-select is `[x:x]`). -/
def svFrom (ps : List (Int × Int)) (i : Nat) : List Int → Int → Int → Int × Int
  | [], a, b =>
    let S := stride ps (ps.length - 1 - i)
    let lo := min (svPos (dimAt ps i) a) (svPos (dimAt ps i) b) * S
    (lo + (((a - b).natAbs : Int) + 1) * S - 1, lo)
  | x :: xs, a, b =>
    let off := svPos (dimAt ps i) x * stride ps (ps.length - 1 - i)
    ((svFrom ps (i + 1) xs a b).1 + off, (svFrom ps (i + 1) xs a b).2 + off)

/-- An index lies within the dimension. -/
def inDim (p : Int × Int) (x : Int) : Prop := min p.1 p.2 ≤ x ∧ x ≤ max p.1 p.2

/-- A part-select runs the way its dimension was declared. -/
def sameDir (p : Int × Int) (a b : Int) : Prop := (p.2 ≤ p.1 → b ≤ a) ∧ (p.1 < p.2 → a ≤ b)

/-- Every selector from `i` on is within its dimension, and there is a dimension for it. -/
def InBounds (ps : List (Int × Int)) (i : Nat) : List Int → Int → Int → Prop
  | [], a, b => i < ps.length ∧ inDim (dimAt ps i) a ∧ inDim (dimAt ps i) b ∧
      sameDir (dimAt ps i) a b
  | x :: xs, a, b => i < ps.length ∧ inDim (dimAt ps i) x ∧ InBounds ps (i + 1) xs a b

/-- The values under `ρ` of an access's selectors: a single index on each but the last,
and the last read as `[a:b]`. -/
def accessValues (ρ : AstNode → Int) : List AstNode → Option (List Int × Int × Int)
  | [] => none
  | [s] => (selectorChildren s).map fun c => ([], eval ρ c.1, eval ρ c.2)
  | s :: rest =>
    match s.children with
    | [x] => (accessValues ρ rest).map fun v => (eval ρ x :: v.1, v.2)
    | _ => none

/-- Every dimension of the table starts at 0. -/
def ZeroBased (ps : List (Int × Int)) : Prop := ∀ p ∈ ps, min p.1 p.2 = 0

theorem getElem?_dimAt {ps : List (Int × Int)} {i : Nat} (hi : i < ps.length) :
    ps[ps.length - 1 - i]? = some (dimAt ps i) := by
  simp [dimAt, List.getD_eq_getElem?_getD, List.getElem?_eq_getElem (show ps.length - 1 - i < ps.length by omega)]

theorem dimAt_mem {ps : List (Int × Int)} {i : Nat} (hi : i < ps.length) : dimAt ps i ∈ ps :=
  List.getElem?_mem (getElem?_dimAt hi)

theorem codeStride_eq_stride {ps : List (Int × Int)} (hz : ZeroBased ps) (d : Nat) :
    codeStride ps d = stride ps d := by
  have h : ∀ p ∈ ps.take d, codeFactor p = width p := fun p hp => by
    simp [codeFactor, hz p (List.mem_of_mem_take hp)]
  rw [codeStride, stride, List.map_congr_left h]

theorem codeIndex_eq_svPos {p : Int × Int} {x : Int} (hz : min p.1 p.2 = 0) (hx : inDim p x) :
    codeIndex p x = svPos p x := by
  simp only [codeIndex, codeFactor, width, svPos, inDim] at *
  split <;> omega

theorem InBounds.lt_length {ps : List (Int × Int)} {i : Nat} {xs : List Int} {a b : Int}
    (h : InBounds ps i xs a b) : i < ps.length := by
  cases xs <;> exact h.1

/-- The last selector's interval, on a dimension that starts at 0. -/
theorem svPos_last {p : Int × Int} {a b : Int} (S : Int) (hz : min p.1 p.2 = 0)
    (ha : inDim p a) (hb : inDim p b) (hdir : sameDir p a b) :
    (svPos p a + 1) * S - 1 =
        min (svPos p a) (svPos p b) * S + (((a - b).natAbs : Int) + 1) * S - 1 ∧
      svPos p b * S = min (svPos p a) (svPos p b) * S := by
  have hdiff : svPos p a = svPos p b + ((a - b).natAbs : Int) := by
    simp only [svPos, inDim, sameDir] at *; omega
  have hmin : min (svPos p a) (svPos p b) = svPos p b := by rw [hdiff]; omega
  rw [hmin, hdiff]
  constructor <;> ring

/-- On one descending dimension `[l:0]` the interval of `[a:b]` is the pair itself. -/
theorem svFrom_single_descending {l a b : Int} (hl : 0 ≤ l) (hb : InBounds [(l, 0)] 0 [] a b) :
    svFrom [(l, 0)] 0 [] a b = (a, b) := by
  obtain ⟨-, ⟨ha₀, -⟩, ⟨hb₀, -⟩, hba, -⟩ := hb
  simp only [dimAt, List.length_singleton, Nat.sub_self, Nat.zero_sub, List.getD_cons_zero,
    min_eq_right hl] at ha₀ hb₀ hba
  have hab := hba hl
  simp only [svFrom, stride, dimAt, svPos, List.length_singleton, Nat.sub_self, Nat.zero_sub,
    List.getD_cons_zero, List.take_zero, List.map_nil, List.prod_nil, mul_one, sub_zero]
  ext <;> simp only <;> omega

variable (ρ : AstNode → Int) {w : AstNode} {ps : List (Int × Int)}

/-- **On a zero-based table the rewriting is SystemVerilog's layout.**  When every
dimension starts at 0, the range `convert_range` builds from selector `i` on evaluates,
under every valuation of the index expressions, to the row-major interval of the bits the
access selects. -/
theorem convertRangeFrom_zeroBased (hz : ZeroBased ps) (hd : w.multirangeDimensions = dimsOf ps)
    (hs : w.multirangeSwapped = swappedOf ps) :
    ∀ (sels : List AstNode) (i : Nat) (xs : List Int) (a b : Int),
      accessValues ρ sels = some (xs, a, b) → InBounds ps i xs a b →
      ∃ L R, convertRangeFrom w ps.length i sels = some (L, R) ∧
        eval ρ L = (svFrom ps i xs a b).1 ∧ eval ρ R = (svFrom ps i xs a b).2
  | [], _, _, _, _, h, _ => by simp [accessValues] at h
  | [s], i, xs, a, b, h, hb => by
    obtain ⟨⟨ea, eb⟩, hc, hv⟩ := Option.map_eq_some'.mp h
    simp only [Prod.mk.injEq] at hv
    obtain ⟨rfl, rfl, rfl⟩ := hv
    obtain ⟨hi, ha, hb', hdir⟩ := hb
    obtain ⟨L, R, hr, hL, hR⟩ := selectorRange_eval ρ hd hs hi (getElem?_dimAt hi) hc
    have hlast := svPos_last (stride ps (ps.length - 1 - i)) (hz _ (dimAt_mem hi)) ha hb' hdir
    rw [codeStride_eq_stride hz, codeIndex_eq_svPos (hz _ (dimAt_mem hi)) ha] at hL
    rw [codeStride_eq_stride hz, codeIndex_eq_svPos (hz _ (dimAt_mem hi)) hb'] at hR
    exact ⟨L, R, by simp [convertRangeFrom, hi, hr], by rw [hL, hlast.1]; rfl,
      by rw [hR, hlast.2]; rfl⟩
  | s :: s' :: rest, i, xs, a, b, h, hb => by
    simp only [accessValues] at h
    split at h
    · rename_i x hx
      obtain ⟨⟨xs', a', b'⟩, hv, he⟩ := Option.map_eq_some'.mp h
      simp only [Prod.mk.injEq] at he
      obtain ⟨rfl, rfl, rfl⟩ := he
      obtain ⟨hi, hx', hb⟩ := hb
      obtain ⟨L', R', hin, hL', hR'⟩ :=
        convertRangeFrom_zeroBased hz hd hs (s' :: rest) (i + 1) xs' a' b' hv hb
      obtain ⟨L, R, hr, -, hR⟩ := selectorRange_eval ρ hd hs hi (getElem?_dimAt hi)
        (show selectorChildren s = some (x, x) by simp [selectorChildren, hx])
      obtain ⟨L'', R'', hc, hL'', hR''⟩ := convertRangeFrom_cons_eval ρ hi (List.cons_ne_nil _ _) hin hr
      rw [codeStride_eq_stride hz, codeIndex_eq_svPos (hz _ (dimAt_mem hi)) hx'] at hR
      refine ⟨L'', R'', hc, ?_, ?_⟩
      · rw [hL'', hR, hL', svFrom]; ring
      · rw [hR'', hR, hR', svFrom]; ring
    · simp at h

/-- The same at the entry of `convert_range(id, packed_ranges, unpacked_ranges, 0)`, for a
declaration whose ranges are those of the table. -/
theorem convertRange_zeroBased {id : AstNode} {packedRanges unpackedRanges : List AstNode}
    {xs : List Int} {a b : Int} (hz : ZeroBased ps) (hd : w.multirangeDimensions = dimsOf ps)
    (hs : w.multirangeSwapped = swappedOf ps)
    (hk : unpackedRanges.length + packedRanges.length = ps.length)
    (hv : accessValues ρ id.children = some (xs, a, b)) (hb : InBounds ps 0 xs a b) :
    ∃ L R, convertRange id packedRanges unpackedRanges w 0 = some (node2 .range L R) ∧
      eval ρ L = (svFrom ps 0 xs a b).1 ∧ eval ρ R = (svFrom ps 0 xs a b).2 := by
  obtain ⟨L, R, hc, hL, hR⟩ := convertRangeFrom_zeroBased ρ hz hd hs _ 0 xs a b hv hb
  have hne : dimsOf ps ≠ [] :=
    List.ne_nil_of_length_pos (by rw [length_dimsOf]; have := hb.lt_length; omega)
  have hch : id.children.isEmpty = false := by
    cases h : id.children with
    | nil => simp [h, accessValues] at hv
    | cons _ _ => rfl
  exact ⟨L, R, by simp [convertRange, hd, hne, hch, hk, hc], hL, hR⟩

/-- `convert_range` returns on every access of at most as many selectors as the table has
dimensions, each with a child. -/
theorem convertRange_exists {id w : AstNode} {packedRanges unpackedRanges : List AstNode}
    {ps : List (Int × Int)} (hd : w.multirangeDimensions = dimsOf ps)
    (hs : w.multirangeSwapped = swappedOf ps)
    (hk : unpackedRanges.length + packedRanges.length = ps.length) (hne : id.children ≠ [])
    (hlen : id.children.length ≤ ps.length) (hch : ∀ s ∈ id.children, s.children ≠ []) :
    ∃ L R, convertRange id packedRanges unpackedRanges w 0 = some (node2 .range L R) := by
  obtain ⟨L, R, h⟩ := convertRangeFrom_exists hd hs 0 id.children hne (by omega) hch
  have hps : dimsOf ps ≠ [] := by
    have : 0 < id.children.length := List.length_pos.2 hne
    exact List.ne_nil_of_length_pos (by rw [length_dimsOf]; omega)
  have hch' : id.children.isEmpty = false := by simpa using hne
  exact ⟨L, R, by simp [convertRange, hd, hps, hch', hk, h]⟩

/-! ## 6. A table that does not start at 0 -/

/-- The packed ranges of `logic [7:4][1:0] x`, least significant first, as
`add_multirange_wire` stores them. -/
def xRanges : List AstNode := [makeRange 1 0, makeRange 7 4]

/-- A bit-select `[v]`: an `AST_RANGE` with one child. -/
def bitSelect (v : Int) : AstNode := { AstNode.new .range with children := [mkconstInt v] }

/-- The access `x[5][1]`. -/
def xAccess : AstNode :=
  { AstNode.new .identifier with str := "\\x", children := [bitSelect 5, bitSelect 1] }

/-- `logic [7:4][1:0] x` flattens to eight bits, and `x[5][1]` is bit `|5-4|*2 + |1-0| = 3`
of them.  `convert_range` scales the outer index by `single_elem_size[1] = 2 - 0` and adds
the index `5` itself, not `5 - 4`: it rewrites the access to bit `5*2 + 1 = 11`, outside
the flat vector. -/
theorem convertRange_offset_bug :
    ∃ w r, addMultirangeAttribute (AstNode.new .wire) xRanges = some (w, 8) ∧
      convertRange xAccess xRanges [] w 0 = some r ∧
      r.children.map (eval fun _ => 0) = [11, 11] ∧
      svFrom [(1, 0), (7, 4)] 0 [5] 1 1 = (3, 3) :=
  ⟨_, _, rfl, rfl, rfl, rfl⟩

end UhdmPlugin
