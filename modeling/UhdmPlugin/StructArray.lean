/-
# A struct in a flattened array: `convert_dot` against `convert_range`

A declaration `S D [l:r]` (or `S [l:r] D`) of a packed struct type `S` is flattened by
`convert_packed_unpacked_range` into one vector.  Its table holds the struct's own range
`[m:0]`, `m = get_max_offset(S)`, first, and the outer dimension `[l:r]` second.  Two paths
of `simplify` place element `x` of that vector:

* `convert_range`, for the access `D[x]`, takes the selector through the table: repetition
  `x` of a descending dimension, and `N - min(l,r) - 1 - x` of an ascending one, which the
  table marks swapped;
* `convert_dot`, for a member access `D[x].p`, adds `(m + 1) * (N - 1 - x)` to the bits
  `expand_dot` finds for `p`, `N` the last entry of the table, whatever the direction.

Main results:
* `convertDot_slot`, `convertRange_slot`: the two placements, for every declaration of
  this shape, every index expression and every member path `expand_dot` resolves.
* `member_inside_element_iff`: the member's bits lie inside the element's exactly when the
  two repetitions agree.  `member_inside_ascending`: they always agree for an ascending
  zero-based dimension `[0:N-1]`.  `member_inside_descending`: for `[N-1:0]` they agree
  only for the middle element.
* `convertDot_descending_misplaced`: for `S D [1:0]`, `S` one byte, `D[0].a` lands on
  `[15:8]` and `D[0]` on `[7:0]`.
-/
import Mathlib.Tactic.Linarith
import UhdmPlugin.Simplify

namespace UhdmPlugin

open AstNode

/-! ## 1. The two placements -/

variable (ρ : AstNode → Int)

/-- **Where `convert_dot` puts element `x`**: the member's bits, moved up by
`(m + 1) * (N - 1 - x)`. -/
theorem convertDot_slot {w n dot S sel idx lD rD : AstNode} {m N : Int} {rest : List AstNode}
    (hS : structOf w = some S) (hm : getMaxOffset S = some m)
    (hN : w.multirangeDimensions.getLast? = some N) (hn : n.children = sel :: rest)
    (hsel : sel.type = .range) (hidx : sel.children.head? = some idx)
    (hdot : expandDot S dot = some (lD, rD)) :
    ∃ L R, convertDot w n dot = some (node2 .range L R) ∧
      eval ρ L = eval ρ lD + (m + 1) * (N - 1 - eval ρ idx) ∧
      eval ρ R = eval ρ rD + (m + 1) * (N - 1 - eval ρ idx) := by
  let off := node2 .mul (mkconstInt (m + 1)) (node2 .sub (mkconstInt (N - 1)) idx)
  refine ⟨node2 .add lD off, node2 .add rD off, ?_, by simp [off], by simp [off]⟩
  simp [convertDot, hS, hm, hN, hn, hsel, hidx, hdot, off]

/-- **Where `convert_range` puts element `x`**: the access `D[x]` against the table of
`[p₀, p₁]` selects repetition `codeIndex p₁ x` of `codeFactor p₀` bits. -/
theorem convertRange_slot {w e sel a b : AstNode} {p₀ p₁ : Int × Int}
    {packedRanges unpackedRanges : List AstNode}
    (hd : w.multirangeDimensions = dimsOf [p₀, p₁]) (hs : w.multirangeSwapped = swappedOf [p₀, p₁])
    (hk : unpackedRanges.length + packedRanges.length = 2) (he : e.children = [sel])
    (hc : selectorChildren sel = some (a, b)) :
    ∃ L R, convertRange e packedRanges unpackedRanges w 0 = some (node2 .range L R) ∧
      eval ρ L = (codeIndex p₁ (eval ρ a) + 1) * codeFactor p₀ - 1 ∧
      eval ρ R = codeIndex p₁ (eval ρ b) * codeFactor p₀ := by
  obtain ⟨L, R, hr, hL, hR⟩ := selectorRange_eval ρ (i := 0) hd hs (by simp) rfl hc
  refine ⟨L, R, ?_, by simpa [codeStride] using hL, by simpa [codeStride] using hR⟩
  simp [convertRange, hd, dimsOf, dimEntries, he, hk, convertRangeFrom, hr]

/-! ## 2. When the member lies inside the element -/

/-- Bits `[hi:lo]` of a slot of `m + 1` bits, moved to repetition `k`, lie inside
repetition `c` exactly when `k = c`. -/
theorem slot_inside_iff {m k c lo hi : Int} (hlo : 0 ≤ lo) (hle : lo ≤ hi) (hhi : hi ≤ m) :
    (c * (m + 1) ≤ lo + (m + 1) * k ∧ hi + (m + 1) * k ≤ (c + 1) * (m + 1) - 1) ↔ k = c := by
  constructor
  · rintro ⟨h₁, h₂⟩
    have hck : c < k + 1 := by
      by_contra h
      nlinarith
    have hkc : k < c + 1 := by
      by_contra h
      nlinarith
    omega
  · rintro rfl
    constructor <;> nlinarith

section Inside

variable {w n e dot S sel idx lD rD : AstNode} {m : Int} {p₁ : Int × Int}
  {rest packedRanges unpackedRanges : List AstNode}

/-- **The member lies inside the element exactly when the two repetitions agree.**  For a
declaration whose table is the struct's `[m:0]` and then `[l:r]`, a bit-select `[x]` and a
member path whose bits `expand_dot` finds within `[m:0]`, the range of `D[x].p` lies inside
the range of `D[x]` if and only if `codeIndex (l, r) x = N - 1 - x`. -/
theorem member_inside_element_iff (hm : 0 ≤ m)
    (hd : w.multirangeDimensions = dimsOf [(m, 0), p₁])
    (hs : w.multirangeSwapped = swappedOf [(m, 0), p₁])
    (hk : unpackedRanges.length + packedRanges.length = 2)
    (hS : structOf w = some S) (hmax : getMaxOffset S = some m)
    (hn : n.children = sel :: rest) (he : e.children = [sel]) (hsel : sel.type = .range)
    (hidx : sel.children = [idx]) (hdot : expandDot S dot = some (lD, rD))
    (hbits : 0 ≤ eval ρ rD ∧ eval ρ rD ≤ eval ρ lD ∧ eval ρ lD ≤ m) :
    ∃ L R L' R', convertDot w n dot = some (node2 .range L R) ∧
      convertRange e packedRanges unpackedRanges w 0 = some (node2 .range L' R') ∧
      ((eval ρ R' ≤ eval ρ R ∧ eval ρ L ≤ eval ρ L') ↔
        codeIndex p₁ (eval ρ idx) = width p₁ - 1 - eval ρ idx) := by
  have hN : w.multirangeDimensions.getLast? = some (width p₁) := by simp [hd, dimsOf, dimEntries]
  obtain ⟨L, R, hdot', hL, hR⟩ := convertDot_slot ρ hS hmax hN hn hsel
    (show sel.children.head? = some idx by simp [hidx]) hdot
  obtain ⟨L', R', hr, hL', hR'⟩ :=
    convertRange_slot ρ hd hs hk he (show selectorChildren sel = some (idx, idx) by
      simp [selectorChildren, hidx])
  have hf : codeFactor (m, 0) = m + 1 := by simp [codeFactor, width, hm]
  refine ⟨L, R, L', R', hdot', hr, ?_⟩
  rw [hL, hR, hL', hR', hf]
  exact (slot_inside_iff hbits.1 hbits.2.1 hbits.2.2).trans eq_comm

/-- An ascending zero-based dimension `[0:N-1]`: the member always lies inside its element. -/
theorem member_inside_ascending {N : Int} (hN : 1 < N) (hm : 0 ≤ m)
    (hd : w.multirangeDimensions = dimsOf [(m, 0), (0, N - 1)])
    (hs : w.multirangeSwapped = swappedOf [(m, 0), (0, N - 1)])
    (hk : unpackedRanges.length + packedRanges.length = 2)
    (hS : structOf w = some S) (hmax : getMaxOffset S = some m)
    (hn : n.children = sel :: rest) (he : e.children = [sel]) (hsel : sel.type = .range)
    (hidx : sel.children = [idx]) (hdot : expandDot S dot = some (lD, rD))
    (hbits : 0 ≤ eval ρ rD ∧ eval ρ rD ≤ eval ρ lD ∧ eval ρ lD ≤ m) :
    ∃ L R L' R', convertDot w n dot = some (node2 .range L R) ∧
      convertRange e packedRanges unpackedRanges w 0 = some (node2 .range L' R') ∧
      eval ρ R' ≤ eval ρ R ∧ eval ρ L ≤ eval ρ L' := by
  obtain ⟨L, R, L', R', h₁, h₂, hiff⟩ :=
    member_inside_element_iff ρ hm hd hs hk hS hmax hn he hsel hidx hdot hbits
  refine ⟨L, R, L', R', h₁, h₂, hiff.2 ?_⟩
  simp only [codeIndex, codeFactor, width]
  split_ifs <;> omega

/-- A descending dimension `[N-1:0]`: the member lies inside its element only when
`x = N - 1 - x`. -/
theorem member_inside_descending {N : Int} (hN : 0 < N) (hm : 0 ≤ m)
    (hd : w.multirangeDimensions = dimsOf [(m, 0), (N - 1, 0)])
    (hs : w.multirangeSwapped = swappedOf [(m, 0), (N - 1, 0)])
    (hk : unpackedRanges.length + packedRanges.length = 2)
    (hS : structOf w = some S) (hmax : getMaxOffset S = some m)
    (hn : n.children = sel :: rest) (he : e.children = [sel]) (hsel : sel.type = .range)
    (hidx : sel.children = [idx]) (hdot : expandDot S dot = some (lD, rD))
    (hbits : 0 ≤ eval ρ rD ∧ eval ρ rD ≤ eval ρ lD ∧ eval ρ lD ≤ m) :
    ∃ L R L' R', convertDot w n dot = some (node2 .range L R) ∧
      convertRange e packedRanges unpackedRanges w 0 = some (node2 .range L' R') ∧
      ((eval ρ R' ≤ eval ρ R ∧ eval ρ L ≤ eval ρ L') ↔ 2 * eval ρ idx = N - 1) := by
  obtain ⟨L, R, L', R', h₁, h₂, hiff⟩ :=
    member_inside_element_iff ρ hm hd hs hk hS hmax hn he hsel hidx hdot hbits
  refine ⟨L, R, L', R', h₁, h₂, hiff.trans ?_⟩
  simp only [codeIndex, width]
  split_ifs <;> omega

end Inside

/-! ## 3. `S D [1:0]` -/

/-- `typedef struct packed { logic [7:0] a; } S;`, laid out. -/
def byteStruct : AstNode :=
  { AstNode.new .struct with
    str := "\\S"
    children := [{ AstNode.new .structItem with str := "a", rangeLeft := 7, rangeRight := 0 }] }

/-- `S D [1:0];` as `resolve_wiretype` leaves it: the struct's range packed, `[1:0]`
unpacked. -/
def structArray : AstNode :=
  { AstNode.new .wire with
    str := "\\D"
    wiretype := true
    wiretypeAst := some byteStruct
    packedRanges := some [makeRange 7 0]
    unpackedRanges := some [makeRange 1 0] }

/-- `D` as `convert_packed_unpacked_range` leaves it: the table `[0, 8, 0, 2]`, not swapped,
and the range `[15:0]`. -/
def structArrayFlat : AstNode :=
  { structArray with
    multirangeDimensions := [0, 8, 0, 2]
    multirangeSwapped := [false, false]
    children := [makeRange 15 0] }

/-- The member path `.a`. -/
def dotA : AstNode := { AstNode.new .dot with str := "\\a" }

/-- The access `D[0].a`. -/
def accessElemA : AstNode :=
  { AstNode.new .identifier with str := "\\D", children := [bitSelect 0, dotA] }

/-- The access `D[0]`. -/
def accessElem : AstNode := { AstNode.new .identifier with str := "\\D", children := [bitSelect 0] }

theorem expandDot_byteStruct : expandDot byteStruct dotA = some (mkconstInt 7, mkconstInt 0) :=
  (@expandDot_chain none (by simp) ["\\a"] byteStruct _ _ rfl rfl).trans rfl

/-- `S D [1:0]`: `D[0].a` lies inside `D[0]` only if `2 * 0 = 1`. -/
theorem member_inside_descending_structArray :
    ∃ L R L' R', convertDot structArrayFlat accessElemA dotA = some (node2 .range L R) ∧
      convertRange accessElem (packedOf structArrayFlat) (unpackedOf structArrayFlat)
          structArrayFlat 0 = some (node2 .range L' R') ∧
      ((eval (fun _ => 0) R' ≤ eval (fun _ => 0) R ∧ eval (fun _ => 0) L ≤ eval (fun _ => 0) L') ↔
        2 * eval (fun _ => 0) (mkconstInt 0) = 2 - 1) :=
  @member_inside_descending (fun _ => 0) structArrayFlat accessElemA accessElem dotA byteStruct
    (bitSelect 0) (mkconstInt 0) (mkconstInt 7) (mkconstInt 0) 7 [dotA] (packedOf structArrayFlat)
    (unpackedOf structArrayFlat) 2 (by decide) (by decide) rfl rfl rfl rfl rfl rfl rfl rfl rfl
    expandDot_byteStruct (by simp)

/-- `S D [0:1]`, flattened with its dimension marked swapped. -/
def structArrayAscFlat : AstNode :=
  { structArrayFlat with
    multirangeDimensions := dimsOf [(7, 0), (0, 1)]
    multirangeSwapped := swappedOf [(7, 0), (0, 1)] }

/-- `S D [0:1]`: `D[0].a` lies inside `D[0]`. -/
theorem member_inside_ascending_structArray :
    ∃ L R L' R', convertDot structArrayAscFlat accessElemA dotA = some (node2 .range L R) ∧
      convertRange accessElem (packedOf structArrayAscFlat) (unpackedOf structArrayAscFlat)
          structArrayAscFlat 0 = some (node2 .range L' R') ∧
      eval (fun _ => 0) R' ≤ eval (fun _ => 0) R ∧ eval (fun _ => 0) L ≤ eval (fun _ => 0) L' :=
  @member_inside_ascending (fun _ => 0) structArrayAscFlat accessElemA accessElem dotA byteStruct
    (bitSelect 0) (mkconstInt 0) (mkconstInt 7) (mkconstInt 0) 7 [dotA]
    (packedOf structArrayAscFlat) (unpackedOf structArrayAscFlat) 2 (by decide) (by decide) rfl
    rfl rfl rfl rfl rfl rfl rfl rfl expandDot_byteStruct (by simp)

/-- The bounds of an identifier's one range, evaluated. -/
def rangeValue (n : AstNode) : Option (Int × Int) :=
  match n.children with
  | [r] => match r.children with
    | [a, b] => some (eval (fun _ => 0) a, eval (fun _ => 0) b)
    | _ => none
  | _ => none

/-- `D[0].a` lands on `[15:8]`, the bits of `D[1]`, while `D[0]` is `[7:0]`. -/
theorem convertDot_descending_misplaced :
    convertPackedUnpackedRange Yosys.idle.wire [] structArray = some structArrayFlat ∧
      (expandFirstDot [("\\D", structArrayFlat)] accessElemA).bind rangeValue = some (15, 8) ∧
      (simplifyIdentifier [("\\D", structArrayFlat)] accessElem).bind rangeValue = some (7, 0) := by
  have hconv : convertDot structArrayFlat accessElemA dotA =
      some (node2 .range
        (node2 .add (mkconstInt 7) (node2 .mul (mkconstInt 8) (node2 .sub (mkconstInt 1) (mkconstInt 0))))
        (node2 .add (mkconstInt 0) (node2 .mul (mkconstInt 8) (node2 .sub (mkconstInt 1) (mkconstInt 0))))) := by
    unfold convertDot
    rw [show structOf structArrayFlat = some byteStruct from rfl]
    simp only [Option.bind_eq_bind, Option.some_bind, expandDot_byteStruct]
    rfl
  refine ⟨rfl, ?_, rfl⟩
  rw [show expandFirstDot [("\\D", structArrayFlat)] accessElemA =
      (convertDot structArrayFlat accessElemA dotA).map
        (fun e => { accessElemA with children := [e], basicPrep := true }) from rfl, hconv]
  rfl

end UhdmPlugin
