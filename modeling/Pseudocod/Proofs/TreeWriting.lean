import Mathlib
import Pseudocod.Proofs.Spelling
import Pseudocod.SExpr

/-!
# A tree is told from its writing

A symbolic expression in writing says itself where it ends. The head of a node or of an empty block
ends at a newline or at a bracket that is not part of any head; the text of a leaf ends at the first
quotation mark that is not escaped, whatever stands in it; and the children of a node end where a
line has a closing bracket in place of one more blank. So two trees that are written alike are the
same one, and a program is told from its tree.

* `SExpr.escape_append_inj`: the text of a leaf ends at its quotation mark.
* `SExpr.renderAt_append_inj`: what follows on an expression in writing is told from it.
* `Program.tree_injective`: different programs have different trees.
* `Program.dump_inj`: programs whose trees are written alike are the same.
-/

namespace Pseudocod

namespace SExpr

/-! ## Heads -/

/-- The heads of leaves. -/
def leafHeads : List String :=
  ["number", "string", "identifier"]

/-- Whether a head is over in front of `c`. -/
def endsHead (c : Char) : Bool :=
  c = '\n' || c = ')'

/-- Heads of nodes and of empty blocks: they are over where they end, and do not begin as a leaf. -/
def IsHead (head : String) : Prop :=
  (∀ c ∈ head.toList, endsHead c = false) ∧
    ∀ leaf ∈ leafHeads, ¬ leaf.toList ++ [' '] <+: head.toList

instance (head : String) : Decidable (IsHead head) :=
  inferInstanceAs (Decidable (_ ∧ _))

mutual

/-- Expressions with the heads that their kind can have. -/
def WellHeaded : SExpr → Prop
  | .leaf head _ => head ∈ leafHeads
  | .bare head => IsHead head
  | .node head children => IsHead head ∧ AllWellHeaded children

/-- Several such expressions. -/
def AllWellHeaded : List SExpr → Prop
  | [] => True
  | expr :: exprs => expr.WellHeaded ∧ AllWellHeaded exprs

end

theorem allWellHeaded_iff {exprs : List SExpr} :
    AllWellHeaded exprs ↔ ∀ expr ∈ exprs, expr.WellHeaded := by
  induction exprs with
  | nil => simp [AllWellHeaded]
  | cons expr exprs ih => rw [AllWellHeaded, ih, List.forall_mem_cons]

/-- Where a text goes on with a character that cannot be in it is told from the whole. -/
theorem append_stop_inj {p : Char → Bool} {text text' rest rest' : List Char} {c c' : Char}
    (inside : ∀ d ∈ text, p d = false) (inside' : ∀ d ∈ text', p d = false)
    (stop : p c = true) (stop' : p c' = true) (h : text ++ c :: rest = text' ++ c' :: rest') :
    text = text' ∧ c = c' ∧ rest = rest' := by
  have cut {word after : List Char} {d : Char} (inside : ∀ d ∈ word, p d = false)
      (stop : p d = true) : (word ++ d :: after).takeWhile (fun d => !p d) = word := by
    refine (Lexeme.takeWhile_stop (fun d member => by rw [inside d member]; rfl) ?_).1
    rintro _ ⟨⟩
    rw [stop]
    rfl
  have same : text = text' := by
    rw [← cut inside stop, h, cut inside' stop']
  rw [same] at h
  exact ⟨same, List.cons.inj (List.append_cancel_left h)⟩

theorem leafHead_inj {head head' : String} (leaf : head ∈ leafHeads) (leaf' : head' ∈ leafHeads)
    {rest rest' : List Char} (h : head.toList ++ ' ' :: rest = head'.toList ++ ' ' :: rest') :
    head = head' ∧ rest = rest' := by
  have known : ∀ head ∈ leafHeads, ∀ c ∈ head.toList, decide (c = ' ') = false := by decide
  obtain ⟨same, -, others⟩ := append_stop_inj (known _ leaf) (known _ leaf')
    (decide_eq_true rfl) (decide_eq_true rfl) h
  exact ⟨String.toList_inj.mp same, others⟩

theorem isHead_inj {head head' : String} (isHead : IsHead head) (isHead' : IsHead head')
    {c c' : Char} (stop : endsHead c = true) (stop' : endsHead c' = true) {rest rest' : List Char}
    (h : head.toList ++ c :: rest = head'.toList ++ c' :: rest') :
    head = head' ∧ c = c' ∧ rest = rest' := by
  obtain ⟨same, others⟩ := append_stop_inj isHead.1 isHead'.1 stop stop' h
  exact ⟨String.toList_inj.mp same, others⟩

/-- A leaf is not taken for anything else. -/
theorem leafHead_ne_isHead {leaf head : String} (isLeaf : leaf ∈ leafHeads) (isHead : IsHead head)
    {c : Char} (stop : endsHead c = true) (rest rest' : List Char) :
    leaf.toList ++ ' ' :: rest ≠ head.toList ++ c :: rest' := by
  have known : ∀ leaf ∈ leafHeads, ∀ d ∈ leaf.toList ++ [' '], endsHead d = false := by decide
  intro same
  have front : leaf.toList ++ [' '] <+: head.toList ++ c :: rest' := by
    rw [← same]
    exact ⟨rest, List.append_assoc leaf.toList [' '] rest⟩
  rcases List.prefix_or_prefix_of_prefix front (List.prefix_append _ _) with inner | ⟨more, eq⟩
  · exact isHead.2 leaf isLeaf inner
  · -- the head is over before the blank, and so is the leaf
    rw [← eq, List.prefix_append_right_inj] at front
    cases more with
    | nil =>
      rw [List.append_nil] at eq
      exact isHead.2 leaf isLeaf (eq ▸ List.prefix_rfl)
    | cons d more =>
      obtain ⟨rfl, -⟩ := List.cons_prefix_cons.mp front
      have inside := known leaf isLeaf d (by rw [← eq]; simp)
      exact Bool.noConfusion (stop.symm.trans inside)

/-! ## Texts of leaves -/

/-- What an escaped text begins with. -/
theorem escape_cons_cases (c : Char) (text : List Char) :
    ((c = '"' ∨ c = '\\') ∧ escape (c :: text) = '\\' :: c :: escape text) ∨
      (c ≠ '"' ∧ c ≠ '\\' ∧ escape (c :: text) = c :: escape text) := by
  by_cases special : c = '"' ∨ c = '\\'
  · exact .inl ⟨special, by simp [escape, special]⟩
  · obtain ⟨quote, backslash⟩ := not_or.mp special
    exact .inr ⟨quote, backslash, by simp [escape, quote, backslash]⟩

/-- No quotation mark begins an escaped text. -/
theorem quote_cons_ne_escape_cons (c : Char) (text rest rest' : List Char) :
    '"' :: rest ≠ escape (c :: text) ++ rest' := by
  intro same
  rcases escape_cons_cases c text with ⟨-, eq⟩ | ⟨quote, -, eq⟩
  · rw [eq] at same
    exact absurd (List.cons.inj same).1 (by decide)
  · rw [eq] at same
    exact quote (List.cons.inj same).1.symm

/-- Where the text of a leaf ends is told from how it is written. -/
theorem escape_append_inj {text text' rest rest' : List Char}
    (h : escape text ++ '"' :: rest = escape text' ++ '"' :: rest') :
    text = text' ∧ rest = rest' := by
  induction text generalizing text' with
  | nil =>
    cases text' with
    | nil => exact ⟨rfl, (List.cons.inj h).2⟩
    | cons c' text' => exact absurd h (quote_cons_ne_escape_cons c' text' _ _)
  | cons c text ih =>
    cases text' with
    | nil => exact absurd h.symm (quote_cons_ne_escape_cons c text _ _)
    | cons c' text' =>
      have front : c = c' ∧ escape text ++ '"' :: rest = escape text' ++ '"' :: rest' := by
        rcases escape_cons_cases c text with ⟨-, eq⟩ | ⟨-, plain, eq⟩ <;>
          rcases escape_cons_cases c' text' with ⟨-, eq'⟩ | ⟨-, plain', eq'⟩ <;>
          rw [eq, eq'] at h
        · exact List.cons.inj (List.cons.inj h).2
        · exact absurd (List.cons.inj h).1.symm plain'
        · exact absurd (List.cons.inj h).1 plain
        · exact List.cons.inj h
      obtain ⟨rfl, behind⟩ := front
      obtain ⟨rfl, rfl⟩ := ih behind
      exact ⟨rfl, rfl⟩

/-! ## Lines -/

/-- The blanks in front of what is `depth` levels deep. -/
def margin (depth : Nat) : List Char :=
  List.replicate (2 * depth) ' '

theorem margin_succ (depth : Nat) (text : List Char) :
    margin (depth + 1) ++ text = margin depth ++ ' ' :: ' ' :: text := by
  rw [margin, Nat.mul_succ, List.replicate_add, List.append_assoc]
  rfl

theorem toList_renderAt_leaf (depth : Nat) (head text : String) (rest : List Char) :
    ((leaf head text).renderAt depth).toList ++ rest = margin depth ++
      '(' :: (head.toList ++ ' ' :: '"' :: (escape text.toList ++ '"' :: ')' :: '\n' :: rest)) := by
  simp [renderAt, indent, margin]

theorem toList_renderAt_bare (depth : Nat) (head : String) (rest : List Char) :
    ((bare head).renderAt depth).toList ++ rest =
      margin depth ++ '(' :: (head.toList ++ ')' :: '\n' :: rest) := by
  simp [renderAt, indent, margin]

theorem toList_renderAt_node (depth : Nat) (head : String) (children : List SExpr)
    (rest : List Char) :
    ((node head children).renderAt depth).toList ++ rest = margin depth ++ '(' :: (head.toList ++
      '\n' :: ((renderAll (depth + 1) children).toList ++
        (margin depth ++ ')' :: '\n' :: rest))) := by
  simp [renderAt, indent, margin]

theorem toList_renderAll_cons (depth : Nat) (expr : SExpr) (exprs : List SExpr)
    (rest : List Char) :
    (renderAll depth (expr :: exprs)).toList ++ rest =
      (expr.renderAt depth).toList ++ ((renderAll depth exprs).toList ++ rest) := by
  simp [renderAll]

/-- An expression in writing begins with its margin and a bracket. -/
theorem exists_toList_renderAt (depth : Nat) (expr : SExpr) (rest : List Char) :
    ∃ more, (expr.renderAt depth).toList ++ rest = margin depth ++ '(' :: more := by
  cases expr with
  | leaf => exact ⟨_, toList_renderAt_leaf ..⟩
  | bare => exact ⟨_, toList_renderAt_bare ..⟩
  | node => exact ⟨_, toList_renderAt_node ..⟩

/-- Where the children of a node end there is none. -/
theorem closing_ne_renderAll_cons (depth : Nat) (expr : SExpr) (exprs : List SExpr)
    (rest rest' : List Char) :
    margin depth ++ ')' :: rest ≠ (renderAll (depth + 1) (expr :: exprs)).toList ++ rest' := by
  intro same
  rw [toList_renderAll_cons] at same
  obtain ⟨more, eq⟩ := exists_toList_renderAt (depth + 1) expr _
  rw [eq, margin_succ] at same
  exact absurd (List.cons.inj (List.append_cancel_left same)).1 (by decide)

/-! ## Expressions -/

mutual

/-- What follows on an expression in writing is told from it. -/
theorem renderAt_append_inj (expr expr' : SExpr) (depth : Nat) (headed : expr.WellHeaded)
    (headed' : expr'.WellHeaded) {rest rest' : List Char}
    (h : (expr.renderAt depth).toList ++ rest = (expr'.renderAt depth).toList ++ rest') :
    expr = expr' ∧ rest = rest' := by
  have newline : endsHead '\n' = true := rfl
  have bracket : endsHead ')' = true := rfl
  cases expr <;> cases expr' <;>
    simp only [toList_renderAt_leaf, toList_renderAt_bare, toList_renderAt_node,
      List.append_cancel_left_eq, List.cons.injEq, true_and] at h
  case leaf.leaf head text head' text' =>
    obtain ⟨rfl, quoted⟩ := leafHead_inj headed headed' h
    obtain ⟨same, behind⟩ := escape_append_inj (List.cons.inj quoted).2
    obtain rfl := String.toList_inj.mp same
    exact ⟨rfl, (List.cons.inj (List.cons.inj behind).2).2⟩
  case leaf.bare => exact absurd h (leafHead_ne_isHead headed headed' bracket _ _)
  case leaf.node => exact absurd h (leafHead_ne_isHead headed headed'.1 newline _ _)
  case bare.leaf => exact absurd h.symm (leafHead_ne_isHead headed' headed bracket _ _)
  case bare.bare =>
    obtain ⟨rfl, -, behind⟩ := isHead_inj headed headed' bracket bracket h
    exact ⟨rfl, (List.cons.inj behind).2⟩
  case bare.node =>
    obtain ⟨-, same, -⟩ := isHead_inj headed headed'.1 bracket newline h
    exact absurd same (by decide)
  case node.leaf => exact absurd h.symm (leafHead_ne_isHead headed' headed.1 newline _ _)
  case node.bare =>
    obtain ⟨-, same, -⟩ := isHead_inj headed.1 headed' newline bracket h
    exact absurd same (by decide)
  case node.node head children head' children' =>
    obtain ⟨rfl, -, inner⟩ := isHead_inj headed.1 headed'.1 newline newline h
    obtain ⟨rfl, behind⟩ := renderAll_append_inj children children' depth headed.2 headed'.2 inner
    exact ⟨rfl, (List.cons.inj behind).2⟩

/-- Where the children of a node end is told from how they are written. -/
theorem renderAll_append_inj (exprs exprs' : List SExpr) (depth : Nat)
    (headed : AllWellHeaded exprs) (headed' : AllWellHeaded exprs') {rest rest' : List Char}
    (h : (renderAll (depth + 1) exprs).toList ++ (margin depth ++ ')' :: rest) =
      (renderAll (depth + 1) exprs').toList ++ (margin depth ++ ')' :: rest')) :
    exprs = exprs' ∧ rest = rest' := by
  cases exprs with
  | nil =>
    cases exprs' with
    | nil => simpa [renderAll] using h
    | cons expr' exprs' => exact absurd h (closing_ne_renderAll_cons depth expr' exprs' _ _)
  | cons expr exprs =>
    cases exprs' with
    | nil => exact absurd h.symm (closing_ne_renderAll_cons depth expr exprs _ _)
    | cons expr' exprs' =>
      rw [toList_renderAll_cons, toList_renderAll_cons] at h
      obtain ⟨rfl, others⟩ := renderAt_append_inj expr expr' (depth + 1) headed.1 headed'.1 h
      obtain ⟨rfl, behind⟩ := renderAll_append_inj exprs exprs' depth headed.2 headed'.2 others
      exact ⟨rfl, behind⟩

end

theorem render_inj {expr expr' : SExpr} (headed : expr.WellHeaded) (headed' : expr'.WellHeaded)
    (h : expr.render = expr'.render) : expr = expr' := by
  have whole : (expr.renderAt 0).toList ++ [] = (expr'.renderAt 0).toList ++ [] :=
    congrArg (fun text : String => text.toList ++ []) h
  exact (renderAt_append_inj expr expr' 0 headed headed' whole).1

/-! ## Blocks -/

theorem wellHeaded_block {head : String} {children : List SExpr} (isHead : IsHead head)
    (headed : AllWellHeaded children) : (block head children).WellHeaded := by
  unfold block
  split
  next => exact isHead
  next => exact ⟨isHead, headed⟩

@[simp] theorem block_inj {head head' : String} {children children' : List SExpr} :
    block head children = block head' children' ↔ head = head' ∧ children = children' := by
  cases children <;> cases children' <;> simp [block]

@[simp] theorem block_eq_node_iff {head head' : String} {children children' : List SExpr} :
    block head children = node head' children' ↔
      head = head' ∧ children = children' ∧ children ≠ [] := by
  cases children <;> simp [block]

@[simp] theorem node_eq_block_iff {head head' : String} {children children' : List SExpr} :
    node head children = block head' children' ↔
      head = head' ∧ children = children' ∧ children' ≠ [] := by
  rw [eq_comm, block_eq_node_iff, eq_comm, @eq_comm _ children']

@[simp] theorem block_ne_leaf {head head' text : String} {children : List SExpr} :
    block head children ≠ leaf head' text := by
  cases children <;> simp [block]

end SExpr

/-! ## Trees of expressions -/

theorem BinaryOp.isHead_head (op : BinaryOp) : SExpr.IsHead op.head := by
  cases op <;> decide

theorem UnaryOp.isHead_head (op : UnaryOp) : SExpr.IsHead op.head := by
  cases op <;> decide

@[simp] theorem BinaryOp.head_inj {op op' : BinaryOp} : op.head = op'.head ↔ op = op' := by
  cases op <;> cases op' <;> decide

@[simp] theorem UnaryOp.head_inj {op op' : UnaryOp} : op.head = op'.head ↔ op = op' := by
  cases op <;> cases op' <;> decide

theorem Expr.wellHeaded_tree (expr : Expr) : expr.tree.WellHeaded := by
  induction expr with
  | binary op left right ihLeft ihRight => exact ⟨op.isHead_head, ihLeft, ihRight, trivial⟩
  | unary op operand ih => exact ⟨op.isHead_head, ih, trivial⟩
  | number | string | ident => simp [tree, SExpr.WellHeaded, SExpr.leafHeads]

@[simp] theorem Expr.tree_inj {expr expr' : Expr} : expr.tree = expr'.tree ↔ expr = expr' := by
  induction expr generalizing expr' with
  | binary op left right ihLeft ihRight => cases expr' <;> simp [tree, ihLeft, ihRight]
  | unary op operand ih => cases expr' <;> simp [tree, ih]
  | number | string | ident => cases expr' <;> simp [tree]

namespace Statement

/-! ## Trees of statements -/

theorem wellHeaded_name (name : String) : (SExpr.leaf "identifier" name).WellHeaded :=
  show "identifier" ∈ SExpr.leafHeads by decide

mutual

theorem wellHeaded_tree (statement : Statement) : statement.tree.WellHeaded := by
  cases statement with
  | assign name value =>
    exact ⟨by decide, wellHeaded_name name, value.wellHeaded_tree, trivial⟩
  | swap left right =>
    exact ⟨by decide, wellHeaded_name left, wellHeaded_name right, trivial⟩
  | read names =>
    refine ⟨by decide, SExpr.allWellHeaded_iff.mpr (List.forall_mem_map.mpr ?_)⟩
    exact fun name _ => wellHeaded_name name
  | write values =>
    refine ⟨by decide, SExpr.allWellHeaded_iff.mpr (List.forall_mem_map.mpr ?_)⟩
    exact fun value _ => value.wellHeaded_tree
  | ifThen condition body =>
    have block : (SExpr.block "then" (blockTrees body)).WellHeaded :=
      SExpr.wellHeaded_block (by decide) (allWellHeaded_blockTrees body)
    exact ⟨by decide, condition.wellHeaded_tree, block, trivial⟩
  | ifElse condition body alternative =>
    have block : (SExpr.block "then" (blockTrees body)).WellHeaded :=
      SExpr.wellHeaded_block (by decide) (allWellHeaded_blockTrees body)
    have other : (SExpr.block "else" (blockTrees alternative)).WellHeaded :=
      SExpr.wellHeaded_block (by decide) (allWellHeaded_blockTrees alternative)
    exact ⟨by decide, condition.wellHeaded_tree, block, other, trivial⟩
  | count name first last step body =>
    have block : (SExpr.block "body" (blockTrees body)).WellHeaded :=
      SExpr.wellHeaded_block (by decide) (allWellHeaded_blockTrees body)
    refine ⟨by decide, wellHeaded_name name, first.wellHeaded_tree, last.wellHeaded_tree, ?_⟩
    cases step with
    | none => exact ⟨block, trivial⟩
    | some step => exact ⟨step.wellHeaded_tree, block, trivial⟩
  | whileDo condition body =>
    have block : (SExpr.block "body" (blockTrees body)).WellHeaded :=
      SExpr.wellHeaded_block (by decide) (allWellHeaded_blockTrees body)
    exact ⟨by decide, condition.wellHeaded_tree, block, trivial⟩
  | doWhile body condition | doUntil body condition =>
    have block : (SExpr.block "body" (blockTrees body)).WellHeaded :=
      SExpr.wellHeaded_block (by decide) (allWellHeaded_blockTrees body)
    exact ⟨by decide, block, condition.wellHeaded_tree, trivial⟩
  | sequence parts =>
    exact SExpr.wellHeaded_block (by decide) (allWellHeaded_blockTrees parts)

theorem allWellHeaded_blockTrees (statements : List Statement) :
    SExpr.AllWellHeaded (blockTrees statements) := by
  cases statements with
  | nil => trivial
  | cons statement statements =>
    exact ⟨wellHeaded_tree statement, allWellHeaded_blockTrees statements⟩

end

theorem nameTrees_inj {names names' : List String} :
    names.map (SExpr.leaf "identifier") = names'.map (SExpr.leaf "identifier") ↔
      names = names' :=
  List.map_inj_right fun _ _ => by simp

theorem valueTrees_inj {values values' : List Expr} :
    values.map Expr.tree = values'.map Expr.tree ↔ values = values' :=
  List.map_inj_right fun _ _ => Expr.tree_inj.mp

theorem stepTrees_inj {step step' : Option Expr} :
    (step.map Expr.tree).toList = (step'.map Expr.tree).toList ↔ step = step' := by
  cases step <;> cases step' <;> simp

mutual

/-- Different statements have different trees: either their nodes differ in the head or in the
number of their children, or one of the children differs. -/
theorem tree_inj (first second : Statement) : first.tree = second.tree ↔ first = second := by
  cases first <;> cases second <;>
    simp [tree, blockTrees_inj, nameTrees_inj, valueTrees_inj, stepTrees_inj]

theorem blockTrees_inj (first second : List Statement) :
    blockTrees first = blockTrees second ↔ first = second := by
  cases first <;> cases second <;> simp [blockTrees, tree_inj, blockTrees_inj]

end

end Statement

/-! ## Programs -/

namespace Program

theorem tree_injective : Function.Injective tree := by
  intro program program' same
  have statements := (SExpr.block_inj.mp same).2
  cases program
  cases program'
  exact congrArg Program.mk ((Statement.blockTrees_inj _ _).mp statements)

theorem wellHeaded_tree (program : Program) : program.tree.WellHeaded :=
  SExpr.wellHeaded_block (by decide) (Statement.allWellHeaded_blockTrees program.statements)

/-- Programs whose trees are written alike are the same, whatever texts there are in them. -/
theorem dump_inj (program program' : Program) :
    program.dump = program'.dump ↔ program = program' := by
  constructor
  · intro same
    apply tree_injective
    exact SExpr.render_inj program.wellHeaded_tree program'.wellHeaded_tree same
  · rintro rfl
    rfl

end Program

end Pseudocod
