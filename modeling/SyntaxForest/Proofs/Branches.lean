import SyntaxForest.Proofs.Outlines
import SyntaxForest.Proofs.Parsing

/-! # Second branches

After `else` comes the second branch of the last branch that has none yet (`Outline.give`). So not
all outlines can be read: one is *attached* if no branch with a second branch has a first one that
ends in a branch without (`Outline.attached`). What is read of an outline gives every second branch
to the last branch before it (`Outline.settled`). It is always attached, and it is the outline
itself exactly if that is (`settled_eq_iff`).

Statements are read token by token, with a stack of what waits for a statement (`Reader.step`). An
expression is collected up to its semicolon, or up to the parenthesis that closes a condition. -/

namespace SyntaxForest

/-! ### Open and attached outlines -/

namespace Outline

/-- Whether the outline ends in a branch without a second one. -/
def endsOpen : Outline → Bool
  | .branch _ _ none => true
  | .branch _ _ (some elseOutline) => elseOutline.endsOpen
  | _ => false

/-- Gives a second branch to the last branch of an outline that has none. -/
def give : Outline → Outline → Outline
  | .branch g thenOutline none, last =>
    if thenOutline.endsOpen then .branch g (thenOutline.give last) none
    else .branch g thenOutline (some last)
  | .branch g thenOutline (some elseOutline), last =>
    .branch g thenOutline (some (elseOutline.give last))
  | outline, _ => outline

mutual

/-- **Attached outlines**: before a second branch, no first one ends in a branch without one. -/
def attached : Outline → Bool
  | .block outlines => allAttached outlines
  | .branch _ thenOutline none => thenOutline.attached
  | .branch _ thenOutline (some elseOutline) =>
    !thenOutline.endsOpen && thenOutline.attached && elseOutline.attached
  | _ => true

/-- Whether the outlines in a block are attached. -/
def allAttached : List Outline → Bool
  | [] => true
  | outline :: rest => outline.attached && allAttached rest

end

mutual

/-- **The outline with every second branch given to the last branch before it.** -/
def settled : Outline → Outline
  | .block outlines => .block (allSettled outlines)
  | .branch g thenOutline none => .branch g thenOutline.settled none
  | .branch g thenOutline (some elseOutline) =>
    (branch g thenOutline.settled none).give elseOutline.settled
  | outline => outline

/-- The outlines in a block, settled. -/
def allSettled : List Outline → List Outline
  | [] => []
  | outline :: rest => outline.settled :: allSettled rest

end

variable {last : Outline}

theorem endsOpen_give (hl : last.endsOpen) : ∀ {outline : Outline}, outline.endsOpen →
    (outline.give last).endsOpen
  | .branch _ thenOutline none, _ => by
    rw [give]
    split
    · rfl
    · exact hl
  | .branch _ _ (some _), h => by
    rw [give]
    exact endsOpen_give hl h

theorem give_give {next : Outline} (hl : last.endsOpen) : ∀ {outline : Outline}, outline.endsOpen →
    (outline.give last).give next = outline.give (last.give next)
  | .branch g thenOutline none, _ => by
    by_cases hopen : thenOutline.endsOpen
    · have hgiven := endsOpen_give hl hopen
      simp only [give, if_pos hopen, if_pos hgiven, give_give hl hopen]
    · simp only [give, if_neg hopen]
  | .branch g thenOutline (some elseOutline), h => by
    have helse : (elseOutline.give last).give next = elseOutline.give (last.give next) :=
      give_give hl h
    simp only [give, helse]

theorem attached_give (hl : last.attached) : ∀ {outline : Outline}, outline.attached →
    (outline.give last).attached
  | .branch g thenOutline none, h => by
    unfold give
    split
    · have hthen : (thenOutline.give last).attached := attached_give hl h
      exact hthen
    · next hopen => simpa [attached, hopen, hl] using h
  | .branch g thenOutline (some elseOutline), h => by
    simp only [attached, Bool.and_eq_true] at h
    have helse := attached_give hl h.2
    simp only [give, attached, Bool.and_eq_true]
    exact ⟨h.1, helse⟩
  | .value _, h | .ret _, h | .block _, h => h

mutual

theorem attached_settled : ∀ outline : Outline, outline.settled.attached
  | .value _ | .ret _ => rfl
  | .block outlines => allAttached_allSettled outlines
  | .branch _ thenOutline none => thenOutline.attached_settled
  | .branch g thenOutline (some elseOutline) => by
    have hthen : (branch g thenOutline.settled none).attached := thenOutline.attached_settled
    exact attached_give elseOutline.attached_settled hthen

theorem allAttached_allSettled : ∀ outlines : List Outline, allAttached (allSettled outlines)
  | [] => rfl
  | outline :: rest => by
    simp only [allSettled, allAttached, Bool.and_eq_true]
    exact ⟨outline.attached_settled, allAttached_allSettled rest⟩

end

mutual

theorem settled_of_attached : ∀ {outline : Outline}, outline.attached → outline.settled = outline
  | .value _, _ | .ret _, _ => rfl
  | .block outlines, h => by rw [settled, allSettled_of_attached h]
  | .branch g thenOutline none, h => by
    have hthen : thenOutline.settled = thenOutline := settled_of_attached h
    simp only [settled, hthen]
  | .branch g thenOutline (some elseOutline), h => by
    simp only [attached, Bool.and_eq_true, Bool.not_eq_true'] at h
    obtain ⟨⟨hopen, hthen⟩, helse⟩ := h
    simp only [settled, settled_of_attached hthen, settled_of_attached helse, give, hopen,
      Bool.false_eq_true, if_false]

theorem allSettled_of_attached : ∀ {outlines : List Outline}, allAttached outlines →
    allSettled outlines = outlines
  | [], _ => rfl
  | outline :: rest, h => by
    simp only [allAttached, Bool.and_eq_true] at h
    rw [allSettled, settled_of_attached h.1, allSettled_of_attached h.2]

end

/-- **Exactly the attached outlines are settled.** -/
theorem settled_eq_iff {outline : Outline} : outline.settled = outline ↔ outline.attached :=
  ⟨fun h => h ▸ outline.attached_settled, settled_of_attached⟩

end Outline

/-! ### The reader -/

/-- What a token is in a statement. -/
inductive Role where
  | leftBrace
  | rightBrace
  | semicolon
  | branch
  | otherwise
  | ret
  | plain
deriving DecidableEq, Repr

/-- The role of a token. -/
def Token.role : Token → Role
  | .other (.mark '\x7b') => .leftBrace
  | .other (.mark '\x7d') => .rightBrace
  | .other (.mark ';') => .semicolon
  | .operand (.name "if") => .branch
  | .operand (.name "else") => .otherwise
  | .operand (.name "return") => .ret
  | _ => .plain

/-- What waits for a statement: a block with those before it; a branch after its condition; or,
after `else`, what the second branch is given to. -/
inductive Pending where
  | block (done : List Outline)
  | condition (g : Grouping)
  | otherwise (outline : Outline) (h : outline.endsOpen)

/-- What comes next: a statement; the parenthesis after `if`; the rest of a condition inside so many
parentheses, or of an expression that is returned or not; or what follows a statement. -/
inductive Mode where
  | statement
  | parenthesis
  | condition (depth : Nat) (seen : List Token)
  | value (returned : Bool) (seen : List Token)
  | after (outline : Outline)

/-- A state of the reader. -/
structure Reader where
  pending : List Pending
  mode : Mode

/-- Gives the statement to the branches that wait for it. -/
def Pending.settle : List Pending → Outline → List Pending × Outline
  | .condition g :: pending, outline => settle pending (.branch g outline none)
  | .otherwise first _ :: pending, outline => settle pending (first.give outline)
  | pending, outline => (pending, outline)

/-- The statement that ends with a semicolon after the tokens. -/
def Outline.ofTokens? (returned : Bool) (seen : List Token) : Option Outline :=
  if returned then
    if seen.isEmpty then some (.ret none) else (parseOperand [] seen).map fun g => .ret (some g)
  else (parseOperand [] seen).map .value

/-- The number of parentheses that a token is in, after that of the one before. -/
def Token.nest (depth : Nat) : Token → Nat
  | opening => depth + 1
  | closing => depth - 1
  | _ => depth

namespace Reader

/-- Starts a statement with the token, or ends the block. -/
def start (pending : List Pending) (t : Token) : Option Reader :=
  match t.role, pending with
  | .leftBrace, _ => some ⟨.block [] :: pending, .statement⟩
  | .rightBrace, .block done :: below => some ⟨below, .after (.block done)⟩
  | .branch, _ => some ⟨pending, .parenthesis⟩
  | .ret, _ => some ⟨pending, .value true []⟩
  | .plain, _ => some ⟨pending, .value false [t]⟩
  | _, _ => none

/-- Goes on with the token after a settled statement. -/
def resume (settled : List Pending × Outline) (t : Token) : Option Reader :=
  if t.role = .otherwise then
    if h : settled.2.endsOpen then some ⟨.otherwise settled.2 h :: settled.1, .statement⟩ else none
  else
    match settled.1 with
    | .block done :: below => start (.block (done ++ [settled.2]) :: below) t
    | _ => none

/-- **Reads one token.** -/
def step (r : Reader) (t : Token) : Option Reader :=
  match r.mode with
  | .statement => start r.pending t
  | .parenthesis => if t = .opening then some ⟨r.pending, .condition 0 []⟩ else none
  | .condition depth seen =>
    if t = .closing ∧ depth = 0 then
      (parseOperand [] seen).map fun g => ⟨.condition g :: r.pending, .statement⟩
    else if t.role = .plain then some ⟨r.pending, .condition (t.nest depth) (seen ++ [t])⟩
    else none
  | .value returned seen =>
    if t.role = .semicolon then
      (Outline.ofTokens? returned seen).map fun outline => ⟨r.pending, .after outline⟩
    else if t.role = .plain then some ⟨r.pending, .value returned (seen ++ [t])⟩
    else none
  | .after outline => resume (Pending.settle r.pending outline) t

/-- The statement that is read at the end. -/
def finish (r : Reader) : Option Outline :=
  match r.mode with
  | .after outline =>
    match Pending.settle r.pending outline with
    | ([], outline) => some outline
    | _ => none
  | _ => none

/-- **Reads tokens to the end.** -/
def read (r : Reader) : List Token → Option Outline
  | [] => r.finish
  | t :: rest => (r.step t).bind fun r => r.read rest

end Reader

/-- **The outline that a text reads as**, if it reads as one. -/
def Outline.ofText? (text : String) : Option Outline :=
  Reader.read ⟨[], .statement⟩ (tokenize text.toList)

/-! ### What follows a statement -/

section After

variable {pending pending' : List Pending} {outline outline' last : Outline} {rest : List Token}
  {t : Token} {g : Grouping}

theorem Pending.endsOpen_settle : ∀ (pending : List Pending) {outline : Outline}, outline.endsOpen →
    (settle pending outline).2.endsOpen
  | [], _, h => h
  | .block _ :: _, _, h => h
  | .condition _ :: pending, _, _ => by
    rw [settle]
    exact endsOpen_settle pending rfl
  | .otherwise first hfirst :: pending, _, h => by
    rw [settle]
    exact endsOpen_settle pending (Outline.endsOpen_give h hfirst)

/-- **A second branch may be given before or after the branches around it are settled.** -/
theorem Pending.settle_give : ∀ (pending : List Pending) {outline : Outline}, outline.endsOpen →
    settle pending (outline.give last) =
      settle (settle pending outline).1 ((settle pending outline).2.give last)
  | [], _, _ => rfl
  | .block _ :: _, _, _ => rfl
  -- a branch around an open outline passes the second branch on to it
  | .condition g :: pending, outline, h => by
    have hbranch : (Outline.branch g outline none).give last =
        .branch g (outline.give last) none := by
      rw [Outline.give, if_pos h]
    rw [settle, settle, ← hbranch]
    exact settle_give pending rfl
  | .otherwise first hfirst :: pending, outline, h => by
    rw [settle, settle, ← Outline.give_give h hfirst]
    exact settle_give pending (Outline.endsOpen_give h hfirst)

namespace Reader

theorem resume_otherwise {settled : List Pending × Outline} (ht : t.role = .otherwise)
    (h : settled.2.endsOpen) :
    resume settled t = some ⟨.otherwise settled.2 h :: settled.1, .statement⟩ := by
  unfold resume
  rw [if_pos ht, dif_pos h]

theorem resume_block (ht : t.role ≠ .otherwise) (done : List Outline) :
    resume (.block done :: pending, outline) t =
      start (.block (done ++ [outline]) :: pending) t := by
  unfold resume
  rw [if_neg ht]

/-- What follows a statement depends on what is settled with it. -/
theorem read_after (h : Pending.settle pending outline = Pending.settle pending' outline') :
    read ⟨pending, .after outline⟩ rest = read ⟨pending', .after outline'⟩ rest := by
  cases rest with
  | nil => simp only [read, finish, h]
  | cons t rest => simp only [read, step, h]

/-- **After `else` comes the second branch** of the last branch that has none. -/
theorem read_else {y : List Token} (h : outline.endsOpen)
    (hy : ∀ pending, read ⟨pending, .statement⟩ y = read ⟨pending, .after last⟩ rest) :
    read ⟨pending, .after outline⟩ (.keyword "else" :: y) =
      read ⟨pending, .after (outline.give last)⟩ rest := by
  have hopen := Pending.endsOpen_settle pending h
  have hstep : step ⟨pending, .after outline⟩ (.keyword "else") =
      some ⟨.otherwise (Pending.settle pending outline).2 hopen ::
        (Pending.settle pending outline).1, .statement⟩ := resume_otherwise rfl hopen
  rw [read, hstep, Option.bind_some, hy]
  refine read_after ?_
  rw [Pending.settle, Pending.settle_give pending h]

end Reader

end After

end SyntaxForest
