/-
# The part of Yosys's `AST::AstNode` that the UHDM lowering reads and writes

The plugin (`UhdmAst.cc`) builds Yosys AST nodes and then reshapes them: it flattens
multi-dimensional declarations, rewrites accesses into single ranges, expands struct paths
into bit ranges and registers module entities.  Every function modelled in this project
reads or writes a node through a handful of its fields; `AstNode` carries exactly those.

* `type`, `str`, `children` -- the tree itself;
* `integer`, `bits` -- the value of an `AST_CONSTANT` (`bits` only for its width and for
  the parameter serialisation of `process_module`).  Yosys keeps `integer` in a `uint32_t`:
  the field holds the value constant folding reads, and a read of the field as the
  `uint32_t` itself goes through `u32`;
* `rangeLeft`, `rangeRight` -- the absolute bounds Yosys gives a struct member;
* the port flags, `port_id`, `is_custom_type`, `basic_prep`;
* the attributes: the integer-valued ones (`partial`, `keep`, `whitebox`,
  `force_convert`) in `attributes`, the range lists `packed_ranges` and `unpacked_ranges`,
  and `wiretype` with the struct its `id2ast` points to;
* `multirange_dimensions` and `multirange_swapped`, the flattening table.

Fields no modelled function touches (source locations, `is_signed`, `realvalue`, ...) are
left out.  The arithmetic that `convert_range` and `expand_dot` build is given its value by
`AstNode.eval`, which folds `AST_ADD`, `AST_SUB` and `AST_MUL` over constants the way
Yosys's constant folding does, and leaves every other node (an index expression) to a
valuation.
-/
import Mathlib.Algebra.Group.Int

namespace UhdmPlugin

/-- The node types of `AST::AstNodeType` that the lowering distinguishes; every other type
is `other`. -/
inductive AstNodeType
  | none | design | module | package | interface | cell | celltype | argument | paraset
  | wire | memory | parameter | localparam | typedef | wiretype | enum | enumItem
  | struct | structItem | union
  | identifier | dot | range | multirange | constant | realvalue
  | add | sub | mul | le | selfsz | concat
  | initial | always | block | genblock | function | task
  | assign | assignEq | assignLe | cond | caseNode | forLoop | fcall | tcall
  | other (code : Nat)
  deriving DecidableEq, Repr

/-- `RTLIL::State`, one bit of a constant. -/
inductive RtlilState
  | s0 | s1 | sx | sz
  deriving DecidableEq, Repr

/-- The fields of `AST::AstNode` that the modelled functions read or write. -/
structure AstNode where
  type : AstNodeType
  str : String
  /-- The value of a constant; the code's reads of the `uint32_t` field are `u32 integer`. -/
  integer : Int
  bits : List RtlilState
  rangeLeft : Int
  rangeRight : Int
  isInput : Bool
  isOutput : Bool
  portId : Int
  isCustomType : Bool
  basicPrep : Bool
  /-- The integer-valued attributes, by name (`partial`, `keep`, `whitebox`, ...). -/
  attributes : List (String × Int)
  /-- The children of the `packed_ranges` attribute, when it is set. -/
  packedRanges : Option (List AstNode)
  /-- The children of the `unpacked_ranges` attribute, when it is set. -/
  unpackedRanges : Option (List AstNode)
  /-- The `wiretype` attribute is set. -/
  wiretype : Bool
  /-- What the `wiretype` attribute's `id2ast` points to. -/
  wiretypeAst : Option AstNode
  multirangeDimensions : List Int
  multirangeSwapped : List Bool
  children : List AstNode
  deriving Repr

namespace AstNode

/-- `new AST::AstNode(type)`: Yosys's constructor defaults (`range_left = -1`). -/
def new (type : AstNodeType) : AstNode where
  type := type
  str := ""
  integer := 0
  bits := []
  rangeLeft := -1
  rangeRight := 0
  isInput := false
  isOutput := false
  portId := 0
  isCustomType := false
  basicPrep := false
  attributes := []
  packedRanges := none
  unpackedRanges := none
  wiretype := false
  wiretypeAst := none
  multirangeDimensions := []
  multirangeSwapped := []
  children := []

/-- `new AST::AstNode(type, a, b)`. -/
def node2 (type : AstNodeType) (a b : AstNode) : AstNode :=
  { new type with children := [a, b] }

/-- The identifier `name`, with no selector. -/
def identNode (name : String) : AstNode := { new .identifier with str := name }

@[simp] theorem identNode_str (name : String) : (identNode name).str = name := rfl

@[simp] theorem identNode_type (name : String) : (identNode name).type = .identifier := rfl

@[simp] theorem identNode_children (name : String) : (identNode name).children = [] := rfl

/-- The low `w` bits of `v`, least significant first. -/
def intBits (v : Int) (w : Nat) : List RtlilState :=
  (List.range w).map fun i => if (v % 2 ^ w).toNat.testBit i then .s1 else .s0

/-- A value read as the `uint32_t` Yosys keeps `integer` in: its low 32 bits. -/
def u32 (v : Int) : Nat := (v % 2 ^ 32).toNat

/-- A `uint32_t`, or a `size_t` cut to its low 32 bits, stored into an `int`. -/
def toInt32 (n : Nat) : Int :=
  if n % 2 ^ 32 < 2 ^ 31 then (n % 2 ^ 32 : Nat) else ((n % 2 ^ 32 : Nat) : Int) - 2 ^ 32

/-- An `int` converted to a `size_t`. -/
def toSizeT (v : Int) : Nat := (v % 2 ^ 64).toNat

/-- `AST::AstNode::mkconst_int(v, is_signed, width)` with the default width of 32. -/
def mkconstInt (v : Int) : AstNode :=
  { new .constant with integer := v, bits := intBits v 32 }

/-- `make_range(left, right)`: a pre-validated range of two constants. -/
def makeRange (left right : Int) : AstNode :=
  { new .range with
    rangeLeft := left
    rangeRight := right
    children := [mkconstInt left, mkconstInt right] }

/-- Reads the integer attribute `name` (`attributes.count(name)` and its `integer`). -/
def attr (n : AstNode) (name : String) : Option Int :=
  (n.attributes.find? (·.1 = name)).map (·.2)

/-- `attributes[name] = mkconst_int(v, ...)`: sets (or overwrites) an integer attribute. -/
def setAttr (n : AstNode) (name : String) (v : Int) : AstNode :=
  { n with attributes := (name, v) :: n.attributes.filter (·.1 ≠ name) }

/-- `attributes.erase(name)`. -/
def eraseAttr (n : AstNode) (name : String) : AstNode :=
  { n with attributes := n.attributes.filter (·.1 ≠ name) }

@[simp] theorem attr_setAttr_self (n : AstNode) (name : String) (v : Int) :
    (n.setAttr name v).attr name = some v := by
  simp [attr, setAttr]

@[simp] theorem attr_eraseAttr_self (n : AstNode) (name : String) :
    (n.eraseAttr name).attr name = none := by
  simp [attr, eraseAttr, List.find?_filter]

/-! ## The value of the arithmetic the lowering builds -/

/-- Yosys's constant folding of `AST_ADD`, `AST_SUB` and `AST_MUL` over constants, read
over the integers.  Any other node -- an index expression of the source -- gets its value
from the valuation `ρ`. -/
def eval (ρ : AstNode → Int) : AstNode → Int
  | n@{ type := .constant, children := [], .. } => n.integer
  | { type := .add, children := [a, b], .. } => eval ρ a + eval ρ b
  | { type := .sub, children := [a, b], .. } => eval ρ a - eval ρ b
  | { type := .mul, children := [a, b], .. } => eval ρ a * eval ρ b
  | n => ρ n

variable (ρ : AstNode → Int)

@[simp] theorem eval_mkconstInt (v : Int) : eval ρ (mkconstInt v) = v := rfl

@[simp] theorem eval_add (a b : AstNode) : eval ρ (node2 .add a b) = eval ρ a + eval ρ b := rfl

@[simp] theorem eval_sub (a b : AstNode) : eval ρ (node2 .sub a b) = eval ρ a - eval ρ b := rfl

@[simp] theorem eval_mul (a b : AstNode) : eval ρ (node2 .mul a b) = eval ρ a * eval ρ b := rfl

end AstNode

end UhdmPlugin
