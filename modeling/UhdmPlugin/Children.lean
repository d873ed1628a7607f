/-
# A module's children: `add_or_replace_child` and `visit_default_expr`

`process_module` builds a module by handing every child it visits to
`add_or_replace_child`.  A named child replaces the first child of the same name, in
place, inheriting its port direction, its children when it has none, and its range
attributes when its own are empty; any other child is appended, except an unnamed
`AST_INITIAL`: it is merged into the module's first `AST_INITIAL` (its block's statements
appended to that initial's block), or, when there is none, inserted before the first
`AST_ALWAYS`.  `visit_default_expr` puts a variable's initialiser `v = e` into the same
initial, creating it (before the first `AST_ALWAYS`) and its block when needed, in front
of the block's first `AST_ASSIGN_EQ`.

Which statements of the block are initialisers is not visible in the tree, so
`ModuleState` carries a ghost label per statement; `stepL_children` says that the labelled
run is the run of the code.

* `step_inv`, `run_keeps_module_shape`: the invariant `Inv` -- at most one `AST_INITIAL`,
  unnamed, before every `AST_ALWAYS`, holding one block, in which every initialiser comes
  before the first blocking assignment merged from a source initial block -- holds after
  every step of every run whose processes are built as the code builds them.
* `run_default_after_loop`: what the invariant leaves open: an initialiser lands after a
  `for` loop merged from a source initial block, and a named `AST_ALWAYS` that replaces an
  earlier child of its name stays where that child was, before the initial.
-/
import UhdmPlugin.Simplify

namespace UhdmPlugin

open AstNode

/-! ## 1. The code -/

/-- A named child replacing a port takes over its direction; an `AST_MEMORY` becomes a
wire. -/
def inheritPort (old child : AstNode) : AstNode :=
  if old.isInput || old.isOutput then
    { child with isInput := old.isInput, isOutput := old.isOutput, portId := old.portId,
                 type := if child.type = .memory then .wire else child.type }
  else child

/-- A named child with no children takes over those of the child it replaces. -/
def inheritChildren (old child : AstNode) : AstNode :=
  if !old.children.isEmpty && child.children.isEmpty then
    { child with children := old.children,
                 isCustomType := child.isCustomType ||
                   (child.type = .wire && old.children.any (·.type = .wiretype)) }
  else child

/-- Each range attribute that is empty on the new child and not on the old one is taken
over. -/
def inheritRanges (old child : AstNode) : AstNode :=
  let child := match old.packedRanges, child.packedRanges with
    | some (r :: rs), some [] => { child with packedRanges := some (r :: rs) }
    | _, _ => child
  match old.unpackedRanges, child.unpackedRanges with
  | some (r :: rs), some [] => { child with unpackedRanges := some (r :: rs) }
  | _, _ => child

/-- What a named child takes over from the child of the same name it replaces. -/
def replaceChild (old child : AstNode) : AstNode :=
  inheritRanges old (inheritChildren old (inheritPort old child))

/-- The named case: replace the first child of the same name, or append. -/
def addNamed (child : AstNode) : List AstNode → List AstNode
  | [] => [child]
  | c :: cs => if c.str = child.str then replaceChild c child :: cs else c :: addNamed child cs

/-- `children.insert(find_if(..., type == t), node)`: before the first child of type `t`,
or at the end. -/
def insertBefore (t : AstNodeType) (node : AstNode) : List AstNode → List AstNode
  | [] => [node]
  | c :: cs => if c.type = t then node :: c :: cs else c :: insertBefore t node cs

/-- `children.insert(find_if(..., AST_ALWAYS), node)`. -/
abbrev insertBeforeAlways (node : AstNode) (cs : List AstNode) : List AstNode :=
  insertBefore .always node cs

/-- Merging an initial into the module's initial: the statements of its block go to the
end of the module initial's block, its other children to the end of the module initial.
The `log_assert`s want a block first in both. -/
def mergeInitial (initial child : AstNode) : Option AstNode :=
  match initial.children, child.children with
  | b :: rest, cb :: crest =>
    if b.type = .block ∧ cb.type = .block then
      some { initial with children := { b with children := b.children ++ cb.children } :: rest ++ crest }
    else none
  | _, _ => none

/-- Apply `f` to the first `AST_INITIAL`. -/
def updateInitial (f : AstNode → Option AstNode) : List AstNode → Option (List AstNode)
  | [] => some []
  | c :: cs => if c.type = .initial then (f c).map (· :: cs) else (updateInitial f cs).map (c :: ·)

/-- `add_or_replace_child(parent, child)`, on the parent's children. -/
def addOrReplaceChild (cs : List AstNode) (child : AstNode) : Option (List AstNode) :=
  if child.str ≠ "" then some (addNamed child cs)
  else if child.type = .initial then
    if cs.any (·.type = .initial) then updateInitial (fun i => mergeInitial i child) cs
    else some (insertBeforeAlways child cs)
  else some (cs ++ [child])

/-- `block_node->children.insert(find_if(..., AST_ASSIGN_EQ), assign)`. -/
abbrev insertBeforeAssignEq (node : AstNode) (cs : List AstNode) : List AstNode :=
  insertBefore .assignEq node cs

/-- The initialiser `v = e` that `visit_default_expr` builds. -/
def defaultAssign (v : String) (e : AstNode) : AstNode :=
  { AstNode.new .assignEq with children := [{ AstNode.new .identifier with str := v }, e] }

/-- The initialiser put into an initial: into its first child, or into a new block when it
has none. -/
def addDefault (a : AstNode) (initial : AstNode) : AstNode :=
  match initial.children with
  | b :: rest => { initial with children := { b with children := insertBeforeAssignEq a b.children } :: rest }
  | [] => { initial with children := [{ AstNode.new .block with children := [a] }] }

/-- `visit_default_expr` on the children of the module `find_ancestor` found. -/
def visitDefaultExpr (cs : List AstNode) (v : String) (e : AstNode) : List AstNode :=
  let cs := if cs.any (·.type = .initial) then cs else insertBeforeAlways (AstNode.new .initial) cs
  (updateInitial (fun i => some (addDefault (defaultAssign v e) i)) cs).getD cs

/-! ## 2. Runs, and the statements a run puts into the initial -/

/-- What can happen to a module while `process_module` builds it: a child handed to
`add_or_replace_child`, or a variable's initialiser handed to `visit_default_expr`. -/
inductive Op
  | add (child : AstNode)
  | dflt (v : String) (e : AstNode)

/-- One step of the code on the module's children. -/
def applyOp (cs : List AstNode) : Op → Option (List AstNode)
  | .add c => addOrReplaceChild cs c
  | .dflt v e => some (visitDefaultExpr cs v e)

/-- A run of the code. -/
def run (cs : List AstNode) : List Op → Option (List AstNode)
  | [] => some cs
  | op :: ops => (applyOp cs op).bind fun cs => run cs ops

/-- The statements of the module's initial: the children of the first child of its first
`AST_INITIAL`. -/
def blockOf (cs : List AstNode) : List AstNode :=
  match cs.find? (·.type = .initial) with
  | some i => match i.children with
    | b :: _ => b.children
    | [] => []
  | none => []

/-- The module's children, and a ghost label per statement of its initial: `true` for an
initialiser `visit_default_expr` put there, `false` for a statement merged from a source
initial block. -/
structure ModuleState where
  children : List AstNode
  labels : List Bool

/-- The label of the initialiser, inserted where `insertBeforeAssignEq` inserts it. -/
def labelInsert : List AstNode → List Bool → List Bool
  | c :: cs, l :: ls => if c.type = .assignEq then true :: l :: ls else l :: labelInsert cs ls
  | _, ls => ls ++ [true]

/-- The statements an unnamed initial brings: those of its block. -/
def initialStatements (c : AstNode) : List AstNode :=
  match c.children with
  | b :: _ => b.children
  | [] => []

/-- One step with its ghost labels. -/
def stepL (s : ModuleState) : Op → Option ModuleState
  | .add c => (addOrReplaceChild s.children c).map fun cs =>
      ⟨cs, if c.str = "" ∧ c.type = .initial then
        s.labels ++ List.replicate (initialStatements c).length false else s.labels⟩
  | .dflt v e => some ⟨visitDefaultExpr s.children v e, labelInsert (blockOf s.children) s.labels⟩

/-- A labelled run. -/
def runL (s : ModuleState) : List Op → Option ModuleState
  | [] => some s
  | op :: ops => (stepL s op).bind fun s => runL s ops

/-- The labels are ghost: a labelled step does to the children what the code does. -/
theorem stepL_children (s : ModuleState) (op : Op) :
    (stepL s op).map (·.children) = applyOp s.children op := by
  cases op with
  | add c => simp [stepL, applyOp, Option.map_map, Function.comp_def]
  | dflt v e => rfl

theorem runL_children : ∀ (s : ModuleState) (ops : List Op),
    (runL s ops).map (·.children) = run s.children ops
  | s, [] => rfl
  | s, op :: ops => by
    rw [runL, run, ← stepL_children]
    cases stepL s op with
    | none => rfl
    | some s' => exact runL_children s' ops

/-! ## 3. The statements of the initial -/

/-- Once a merged blocking assignment has been seen, no initialiser follows. -/
def Ordered : List Bool → List AstNode → Prop
  | true :: ls, _ :: ss => Ordered ls ss
  | false :: ls, s :: ss => if s.type = .assignEq then ∀ l ∈ ls, l = false else Ordered ls ss
  | _, _ => True

theorem ordered_replicate_false : ∀ ts : List AstNode, Ordered (List.replicate ts.length false) ts
  | [] => trivial
  | t :: ts => by
    simp only [List.length_cons, List.replicate_succ, Ordered]
    split_ifs
    · exact fun l hl => List.eq_of_mem_replicate hl
    · exact ordered_replicate_false ts

/-- Statements merged at the end of the block keep the order. -/
theorem ordered_append_false : ∀ (ls : List Bool) (ss : List AstNode), ls.length = ss.length →
    Ordered ls ss → ∀ ts : List AstNode, Ordered (ls ++ List.replicate ts.length false) (ss ++ ts)
  | [], [], _, _, ts => ordered_replicate_false ts
  | true :: ls, _ :: ss, hl, h, ts => ordered_append_false ls ss (by simpa using hl) h ts
  | false :: ls, s :: ss, hl, h, ts => by
    simp only [Ordered, List.cons_append] at h ⊢
    split_ifs at h ⊢
    · intro l hl'
      rcases List.mem_append.1 hl' with hl' | hl'
      · exact h l hl'
      · exact List.eq_of_mem_replicate hl'
    · exact ordered_append_false ls ss (by simpa using hl) h ts
  | [], _ :: _, hl, _, _ | _ :: _, [], hl, _, _ => by simp at hl

/-- A statement that is no blocking assignment does not constrain the labels after it. -/
theorem ordered_cons {s : AstNode} (hs : s.type ≠ .assignEq) (l : Bool) (ls : List Bool)
    (ss : List AstNode) : Ordered (l :: ls) (s :: ss) ↔ Ordered ls ss := by
  cases l <;> simp [Ordered, hs]

/-- An initialiser inserted before the first blocking assignment keeps the order. -/
theorem ordered_labelInsert (a : AstNode) : ∀ (ss : List AstNode) (ls : List Bool),
    ls.length = ss.length → Ordered ls ss →
      (labelInsert ss ls).length = (insertBeforeAssignEq a ss).length ∧
        Ordered (labelInsert ss ls) (insertBeforeAssignEq a ss)
  | [], [], _, _ => ⟨rfl, trivial⟩
  | s :: ss, l :: ls, hl, h => by
    simp only [labelInsert, insertBeforeAssignEq, insertBefore]
    split_ifs with hs
    · exact ⟨by simpa using hl, h⟩
    · rw [ordered_cons hs] at h ⊢
      obtain ⟨hlen, hord⟩ := ordered_labelInsert a ss ls (by simpa using hl) h
      exact ⟨by simp [hlen], hord⟩
  | [], _ :: _, hl, _ | _ :: _, [], hl, _ => by simp at hl

/-! ## 4. The shape of the module's children -/

/-- No `AST_INITIAL`, and no statements; or exactly one, unnamed, after no `AST_ALWAYS`,
holding one block with the statements `blk`. -/
def Shape (cs blk : List AstNode) : Prop :=
  ((∀ c ∈ cs, c.type ≠ .initial) ∧ blk = []) ∨
  ∃ pre I post b, cs = pre ++ I :: post ∧ (∀ c ∈ pre, c.type ≠ .initial ∧ c.type ≠ .always) ∧
    (∀ c ∈ post, c.type ≠ .initial) ∧ I.type = .initial ∧ I.str = "" ∧ I.children = [b] ∧
    b.type = .block ∧ b.children = blk

theorem insertBefore_split (t : AstNodeType) (x : AstNode) : ∀ cs : List AstNode,
    ∃ pre post, cs = pre ++ post ∧ insertBefore t x cs = pre ++ x :: post ∧
      ∀ c ∈ pre, c.type ≠ t
  | [] => ⟨[], [], rfl, rfl, by simp⟩
  | c :: cs => by
    by_cases hc : c.type = t
    · exact ⟨[], c :: cs, rfl, by simp [insertBefore, hc], by simp⟩
    · obtain ⟨pre, post, rfl, h, hpre⟩ := insertBefore_split t x cs
      refine ⟨c :: pre, post, rfl, by simp [insertBefore, hc, h], ?_⟩
      simp only [List.mem_cons, forall_eq_or_imp]
      exact ⟨hc, hpre⟩

theorem updateInitial_split (f : AstNode → Option AstNode) {I : AstNode} (post : List AstNode)
    (hI : I.type = .initial) : ∀ pre : List AstNode, (∀ c ∈ pre, c.type ≠ .initial) →
      updateInitial f (pre ++ I :: post) = (f I).map fun I' => pre ++ I' :: post
  | [], _ => by simp [updateInitial, hI]
  | c :: pre, h => by
    simp only [List.mem_cons, forall_eq_or_imp] at h
    simp [updateInitial, h.1, updateInitial_split f post hI pre h.2, Option.map_map,
      Function.comp_def]

theorem replaceChild_type (old child : AstNode) :
    (replaceChild old child).type = child.type ∨ (replaceChild old child).type = .wire := by
  have h₁ : ∀ c, (inheritRanges old c).type = c.type := fun c => by
    unfold inheritRanges; split <;> dsimp only <;> split <;> rfl
  have h₂ : ∀ c, (inheritChildren old c).type = c.type := fun c => by
    unfold inheritChildren; split_ifs <;> rfl
  rw [replaceChild, h₁, h₂]
  unfold inheritPort
  split_ifs <;> simp

/-- Every child after a named add was there, or has the added child's type, or is a wire. -/
theorem addNamed_types (c : AstNode) : ∀ (l : List AstNode), ∀ x ∈ addNamed c l,
    x ∈ l ∨ x.type = c.type ∨ x.type = .wire
  | [] => by simp [addNamed]
  | y :: l => by
    intro x hx
    simp only [addNamed] at hx
    split_ifs at hx
    · rcases List.mem_cons.1 hx with rfl | hx
      · exact .inr (replaceChild_type y c)
      · exact .inl (List.mem_cons_of_mem y hx)
    · rcases List.mem_cons.1 hx with rfl | hx
      · exact .inl (List.mem_cons_self _ _)
      · exact (addNamed_types c l x hx).imp_left (List.mem_cons_of_mem y)

/-- A named add leaves a child of another name in place. -/
theorem addNamed_split (c : AstNode) {I : AstNode} (post : List AstNode) (hI : I.str ≠ c.str) :
    ∀ pre : List AstNode, ∃ pre' post', addNamed c (pre ++ I :: post) = pre' ++ I :: post' ∧
      (∀ x ∈ pre', x ∈ pre ∨ x.type = c.type ∨ x.type = .wire) ∧
      (∀ x ∈ post', x ∈ post ∨ x.type = c.type ∨ x.type = .wire)
  | [] => ⟨[], addNamed c post, by simp [addNamed, hI], by simp, addNamed_types c post⟩
  | y :: pre => by
    by_cases hy : y.str = c.str
    · refine ⟨replaceChild y c :: pre, post, by simp [addNamed, hy], ?_, fun x hx => .inl hx⟩
      intro x hx
      rcases List.mem_cons.1 hx with rfl | hx
      · exact .inr (replaceChild_type y c)
      · exact .inl (List.mem_cons_of_mem y hx)
    · obtain ⟨pre', post', h, hpre, hpost⟩ := addNamed_split c post hI pre
      refine ⟨y :: pre', post', by simp [addNamed, hy, h], ?_, hpost⟩
      intro x hx
      rcases List.mem_cons.1 hx with rfl | hx
      · exact .inl (List.mem_cons_self _ _)
      · exact (hpre x hx).imp_left (List.mem_cons_of_mem y)

theorem blockOf_of_shape {cs blk : List AstNode} (h : Shape cs blk) : blockOf cs = blk := by
  rcases h with ⟨hno, rfl⟩ | ⟨pre, I, post, b, rfl, hpre, -, hI, -, hIc, -, hb⟩
  · have : cs.find? (·.type = .initial) = none := List.find?_eq_none.2 (by simpa using hno)
    simp [blockOf, this]
  · have : (pre ++ I :: post).find? (·.type = .initial) = some I := by
      rw [List.find?_append, List.find?_eq_none.2 (by simpa using fun c hc => (hpre c hc).1)]
      simp [hI]
    simp [blockOf, this, hIc, hb]

theorem any_initial_append (pre post : List AstNode) {I : AstNode} (hI : I.type = .initial) :
    (pre ++ I :: post).any (·.type = .initial) = true := by
  simp [hI]

/-! ## 5. Each step keeps the shape -/

/-- A named child that is no process keeps the shape and the statements. -/
theorem shape_addNamed {cs blk : List AstNode} {c : AstNode} (h : Shape cs blk)
    (hc : c.str ≠ "") (hi : c.type ≠ .initial) (ha : c.type ≠ .always) :
    Shape (addNamed c cs) blk := by
  -- what holds of the old children's types, of `c`'s and of a wire holds of the new ones
  have lift : ∀ {P : AstNodeType → Prop} {l l' : List AstNode}, P c.type → P .wire →
      (∀ x ∈ l, P x.type) → (∀ x ∈ l', x ∈ l ∨ x.type = c.type ∨ x.type = .wire) →
        ∀ x ∈ l', P x.type := by
    intro P l l' hc hw hl h x hx
    rcases h x hx with h | h | h
    · exact hl x h
    · exact h ▸ hc
    · exact h ▸ hw
  rcases h with ⟨hno, rfl⟩ | ⟨pre, I, post, b, rfl, hpre, hpost, hI, hIs, hIc, hb, hblk⟩
  · exact .inl ⟨lift (P := (· ≠ .initial)) hi (by decide) hno (addNamed_types c cs), rfl⟩
  · obtain ⟨pre', post', h, hpre', hpost'⟩ :=
      addNamed_split c post (by rw [hIs]; exact Ne.symm hc) pre
    exact .inr ⟨pre', I, post', b, h, lift (P := fun t => t ≠ .initial ∧ t ≠ .always) ⟨hi, ha⟩
      (by decide) hpre hpre', lift (P := (· ≠ .initial)) hi (by decide) hpost hpost', hI, hIs, hIc,
      hb, hblk⟩

/-- Any other child but an initial goes to the end. -/
theorem shape_append {cs blk : List AstNode} {c : AstNode} (h : Shape cs blk)
    (hi : c.type ≠ .initial) : Shape (cs ++ [c]) blk := by
  rcases h with ⟨hno, rfl⟩ | ⟨pre, I, post, b, rfl, hpre, hpost, hrest⟩
  · refine .inl ⟨fun x hx => ?_, rfl⟩
    rcases List.mem_append.1 hx with hx | hx
    · exact hno x hx
    · exact (List.mem_singleton.1 hx) ▸ hi
  · refine .inr ⟨pre, I, post ++ [c], b, by simp, hpre, fun x hx => ?_, hrest⟩
    rcases List.mem_append.1 hx with hx | hx
    · exact hpost x hx
    · exact (List.mem_singleton.1 hx) ▸ hi

/-- An unnamed initial holding one block becomes the module's initial, or has its block's
statements appended to the module initial's block. -/
theorem shape_addInitial {cs blk : List AstNode} {c b : AstNode} (h : Shape cs blk)
    (hc : c.str = "") (hi : c.type = .initial) (hcb : c.children = [b]) (hb : b.type = .block) :
    ∃ cs', addOrReplaceChild cs c = some cs' ∧ Shape cs' (blk ++ b.children) := by
  have hadd : addOrReplaceChild cs c = if cs.any (·.type = .initial) then
      updateInitial (fun i => mergeInitial i c) cs else some (insertBeforeAlways c cs) := by
    simp [addOrReplaceChild, hc, hi]
  rcases h with ⟨hno, rfl⟩ | ⟨pre, I, post, b₀, rfl, hpre, hpost, hI, hIs, hIc, hb₀, rfl⟩
  · have hany : cs.any (·.type = .initial) = false := by simpa using hno
    obtain ⟨pre, post, rfl, hins, hpre⟩ := insertBefore_split .always c cs
    refine ⟨_, by rw [hadd, hany, if_neg Bool.false_ne_true, insertBeforeAlways, hins], .inr
      ⟨pre, c, post, b, rfl, fun x hx => ⟨hno x (by simp [hx]), hpre x hx⟩,
        fun x hx => hno x (by simp [hx]), hi, hc, hcb, hb, rfl⟩⟩
  · have hmerge : mergeInitial I c =
        some { I with children := [{ b₀ with children := b₀.children ++ b.children }] } := by
      simp [mergeInitial, hIc, hcb, hb₀, hb]
    refine ⟨pre ++ { I with children := [{ b₀ with children := b₀.children ++ b.children }] } :: post,
      ?_, .inr ⟨pre, _, post, _, rfl, hpre, hpost, hI, hIs, rfl, hb₀, rfl⟩⟩
    rw [hadd, any_initial_append pre post hI, if_pos rfl,
      updateInitial_split _ post hI pre (fun x hx => (hpre x hx).1), hmerge, Option.map_some']

/-- `visit_default_expr` puts the initialiser into the block, before its first blocking
assignment, creating the initial and its block when there is none. -/
theorem shape_visitDefaultExpr {cs blk : List AstNode} (v : String) (e : AstNode)
    (h : Shape cs blk) :
    Shape (visitDefaultExpr cs v e) (insertBeforeAssignEq (defaultAssign v e) blk) := by
  rcases h with ⟨hno, rfl⟩ | ⟨pre, I, post, b₀, rfl, hpre, hpost, hI, hIs, hIc, hb₀, rfl⟩
  · have hany : cs.any (·.type = .initial) = false := by simpa using hno
    obtain ⟨pre, post, rfl, hins, hpre⟩ := insertBefore_split .always (AstNode.new .initial) cs
    have hnew : (AstNode.new .initial).type = .initial := rfl
    simp only [visitDefaultExpr, hany, Bool.false_eq_true, if_false, hins, updateInitial_split _ post hnew pre
      (fun x hx => hno x (by simp [hx])), Option.map_some', Option.getD_some]
    exact .inr ⟨pre, _, post, _, rfl, fun x hx => ⟨hno x (by simp [hx]), hpre x hx⟩,
      fun x hx => hno x (by simp [hx]), rfl, rfl, rfl, rfl, rfl⟩
  · simp only [visitDefaultExpr, any_initial_append pre post hI, if_true,
      updateInitial_split _ post hI pre (fun x hx => (hpre x hx).1), Option.map_some',
      Option.getD_some, addDefault, hIc]
    exact .inr ⟨pre, _, post, _, rfl, hpre, hpost, hI, hIs, rfl, hb₀, rfl⟩

/-! ## 6. The invariant over every run -/

/-- The module's shape, and labels that put every initialiser before the first merged
blocking assignment. -/
structure Inv (s : ModuleState) : Prop where
  shape : Shape s.children (blockOf s.children)
  labels_length : s.labels.length = (blockOf s.children).length
  ordered : Ordered s.labels (blockOf s.children)

theorem inv_of_shape {cs blk : List AstNode} {ls : List Bool} (h : Shape cs blk)
    (hl : ls.length = blk.length) (ho : Ordered ls blk) : Inv ⟨cs, ls⟩ := by
  have hb := blockOf_of_shape h
  exact ⟨hb ▸ h, hb ▸ hl, hb ▸ ho⟩

/-- `process_module` starts from a module with no children. -/
theorem inv_empty : Inv ⟨[], []⟩ := inv_of_shape (.inl ⟨by simp, rfl⟩) rfl trivial

/-- The children the code hands over: an `AST_INITIAL` as `process_initial` and
`process_cont_assign_var_init` build it, unnamed and holding one block, and an
`AST_ALWAYS` as `process_always` builds it from an unnamed process; anything else. -/
def OpOk : Op → Prop
  | .add c => (c.type = .initial → c.str = "" ∧ ∃ b, c.children = [b] ∧ b.type = .block) ∧
      (c.type = .always → c.str = "")
  | .dflt _ _ => True

/-- **One step keeps the invariant**, and the code makes it. -/
theorem step_inv {s : ModuleState} {op : Op} (hs : Inv s) (hop : OpOk op) :
    ∃ s', stepL s op = some s' ∧ Inv s' := by
  obtain ⟨cs, ls⟩ := s
  obtain ⟨hshape, hlen, hord⟩ := hs
  cases op with
  | dflt v e =>
    obtain ⟨hlen', hord'⟩ := ordered_labelInsert (defaultAssign v e) _ ls hlen hord
    exact ⟨_, rfl, inv_of_shape (shape_visitDefaultExpr v e hshape) hlen' hord'⟩
  | add c =>
    obtain ⟨hinit, halw⟩ := hop
    by_cases hc : c.str = ""
    · by_cases hi : c.type = .initial
      · obtain ⟨-, b, hcb, hb⟩ := hinit hi
        obtain ⟨cs', hadd, hshape'⟩ := shape_addInitial hshape hc hi hcb hb
        have hst : initialStatements c = b.children := by simp [initialStatements, hcb]
        refine ⟨_, by simp only [stepL, hadd, Option.map_some', hc, hi, and_self, if_true, hst],
          inv_of_shape hshape' (by simp [hlen]) (ordered_append_false _ _ hlen hord _)⟩
      · have hadd : addOrReplaceChild cs c = some (cs ++ [c]) := by
          simp [addOrReplaceChild, hc, hi]
        exact ⟨_, by simp only [stepL, hadd, Option.map_some', hi, and_false, if_false],
          inv_of_shape (shape_append hshape hi) hlen hord⟩
    · have hi : c.type ≠ .initial := fun h => hc (hinit h).1
      have hadd : addOrReplaceChild cs c = some (addNamed c cs) := by simp [addOrReplaceChild, hc]
      exact ⟨_, by simp only [stepL, hadd, Option.map_some', hc, false_and, if_false],
        inv_of_shape (shape_addNamed hshape hc hi (fun h => hc (halw h))) hlen hord⟩

/-- The labelled run keeps the invariant, step by step. -/
theorem runL_inv : ∀ (ops : List Op) (s : ModuleState), (∀ op ∈ ops, OpOk op) → Inv s →
    ∃ s', runL s ops = some s' ∧ Inv s'
  | [], s, _, hs => ⟨s, rfl, hs⟩
  | op :: ops, s, hops, hs => by
    obtain ⟨s₁, h₁, hs₁⟩ := step_inv hs (hops op (List.mem_cons_self _ _))
    obtain ⟨s', h', hs'⟩ := runL_inv ops s₁ (fun o ho => hops o (List.mem_cons_of_mem _ ho)) hs₁
    exact ⟨s', by rw [runL, h₁, Option.some_bind, h'], hs'⟩

/-- **Every run keeps the invariant.**  From any module in the invariant, every sequence of
`add_or_replace_child` calls with children built as the code builds them, interleaved with
`visit_default_expr` calls, succeeds (no `log_assert` fails) and leaves a module with at
most one `AST_INITIAL`, unnamed, before every `AST_ALWAYS` and holding one `AST_BLOCK`,
in which every initialiser comes before the first blocking assignment merged from a source
initial block. -/
theorem run_keeps_module_shape : ∀ (ops : List Op) (s : ModuleState), (∀ op ∈ ops, OpOk op) →
    Inv s → ∃ s', runL s ops = some s' ∧ run s.children ops = some s'.children ∧ Inv s' := by
  intro ops s hops hs
  obtain ⟨s', h', hs'⟩ := runL_inv ops s hops hs
  exact ⟨s', h', by rw [← runL_children, h', Option.map_some'], hs'⟩

/-- A `for` loop merged from a source initial block. -/
def initialFor : AstNode :=
  { AstNode.new .initial with children := [{ AstNode.new .block with
      children := [AstNode.new .forLoop] }] }

/-- A wire `\a`. -/
def wireA : AstNode := { AstNode.new .wire with str := "\\a" }

/-- An `AST_ALWAYS` named `\a`. -/
def alwaysA : AstNode := { AstNode.new .always with str := "\\a" }

theorem run_keeps_module_shape_initialFor :
    (∀ op ∈ [Op.add initialFor, Op.dflt "\\x" (mkconstInt 0)], OpOk op) ∧ Inv ⟨[], []⟩ ∧
      ∃ s', runL ⟨[], []⟩ [Op.add initialFor, Op.dflt "\\x" (mkconstInt 0)] = some s' ∧
        run [] [Op.add initialFor, Op.dflt "\\x" (mkconstInt 0)] = some s'.children ∧ Inv s' :=
  have hops : ∀ op ∈ [Op.add initialFor, Op.dflt "\\x" (mkconstInt 0)], OpOk op := by
    simp only [List.mem_cons, List.mem_singleton, List.not_mem_nil, or_false, forall_eq_or_imp,
      forall_eq]
    exact ⟨⟨fun _ => ⟨rfl, _, rfl, rfl⟩, fun h => nomatch h⟩, trivial⟩
  ⟨hops, inv_empty, run_keeps_module_shape _ ⟨[], []⟩ hops inv_empty⟩

/-- An initialiser lands after a `for` loop merged from a source initial block; and a named
`AST_ALWAYS` that replaces an earlier child of its name lands before the initial. -/
theorem run_default_after_loop :
    (run [] [Op.add initialFor, Op.dflt "\\x" (mkconstInt 0)]).map (·.map (·.children.map
        (·.children.map (·.type)))) = some [[[.forLoop, .assignEq]]] ∧
    (run [wireA] [Op.dflt "\\x" (mkconstInt 0), Op.add alwaysA]).map (·.map (·.type)) =
      some [.always, .initial] := by
  constructor <;> rfl

end UhdmPlugin
