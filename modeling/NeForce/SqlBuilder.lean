import NeForce.BoolSyntax

/-! # The WHERE clause of the SQL builder

`sql_builder` keeps its conditions as texts and joins them with `AND` when a statement is built. A condition is modelled
by the units of its text; `text` gives the characters. -/

namespace NeForce.SqlBuilder

open BoolSyntax

/-! ### Texts -/

def tokText : Tok → Bytes
  | .test t => t
  | .not => ascii "NOT "
  | .and => ascii " AND "
  | .or => ascii " OR "
  | .lpar => ascii "("
  | .rpar => ascii ")"

def text (toks : List Tok) : Bytes := toks.flatMap tokText

/-- Values with commas between them. -/
def commaList (values : List Bytes) : Bytes := (ascii ", ").intercalate values

/-! ### The builder -/

inductive Operate where
  | select
  | update
  | delete

/-- The members that `build` reads for these statements; the clauses of a `SELECT` before and behind the condition are
kept as they are rendered. -/
structure Builder where
  sqlType : Operate
  table_ : Bytes
  selectHead : Bytes
  selectTail : Bytes
  assignments : List Bytes
  whereConditions_ : List (List Tok)

namespace Builder

def where_ (b : Builder) (condition : List Tok) : Builder :=
  { b with whereConditions_ := b.whereConditions_ ++ [condition] }

/-- A single test of a field. -/
def whereTest (b : Builder) (test : Bytes) : Builder := b.where_ [.test test]

def whereEq (b : Builder) (field value : Bytes) : Builder := b.whereTest (field ++ ascii " = " ++ value)

def whereNe (b : Builder) (field value : Bytes) : Builder := b.whereTest (field ++ ascii " != " ++ value)

def whereGt (b : Builder) (field value : Bytes) : Builder := b.whereTest (field ++ ascii " > " ++ value)

def whereGe (b : Builder) (field value : Bytes) : Builder := b.whereTest (field ++ ascii " >= " ++ value)

def whereLt (b : Builder) (field value : Bytes) : Builder := b.whereTest (field ++ ascii " < " ++ value)

def whereLe (b : Builder) (field value : Bytes) : Builder := b.whereTest (field ++ ascii " <= " ++ value)

def whereLike (b : Builder) (field pattern : Bytes) : Builder := b.whereTest (field ++ ascii " LIKE " ++ pattern)

def whereNotLike (b : Builder) (field pattern : Bytes) : Builder := b.whereTest (field ++ ascii " NOT LIKE " ++ pattern)

def inTest (field : Bytes) (values : List Bytes) : Bytes := field ++ ascii " IN (" ++ commaList values ++ ascii ")"

def whereIn (b : Builder) (field : Bytes) (values : List Bytes) : Builder :=
  if values = [] then b else b.whereTest (inTest field values)

def notInTest (field : Bytes) (values : List Bytes) : Bytes :=
  field ++ ascii " NOT IN (" ++ commaList values ++ ascii ")"

def whereNotIn (b : Builder) (field : Bytes) (values : List Bytes) : Builder :=
  if values = [] then b else b.whereTest (notInTest field values)

def whereBetween (b : Builder) (field start stop : Bytes) : Builder :=
  b.whereTest (field ++ ascii " BETWEEN " ++ start ++ ascii " AND " ++ stop)

def whereNotBetween (b : Builder) (field start stop : Bytes) : Builder :=
  b.whereTest (field ++ ascii " NOT BETWEEN " ++ start ++ ascii " AND " ++ stop)

def whereIsNull (b : Builder) (field : Bytes) : Builder := b.whereTest (field ++ ascii " IS NULL")

def whereIsNotNull (b : Builder) (field : Bytes) : Builder := b.whereTest (field ++ ascii " IS NOT NULL")

def whereExists (b : Builder) (subquery : Bytes) : Builder := b.whereTest (ascii "EXISTS (" ++ subquery ++ ascii ")")

def whereNotExists (b : Builder) (subquery : Bytes) : Builder :=
  b.whereTest (ascii "NOT EXISTS (" ++ subquery ++ ascii ")")

def orWhere (b : Builder) (condition : List Tok) : Builder :=
  match b.whereConditions_.getLast? with
  | some last =>
    { b with whereConditions_ := b.whereConditions_.dropLast ++ [.lpar :: last ++ .or :: condition ++ [.rpar]] }
  | none => b.where_ condition

end Builder

/-! ### Statements -/

/-- A statement: what stands before the condition, the condition, and what stands behind it. -/
structure Statement where
  before : Bytes
  condition : Option (List Tok)
  after : Bytes

/-- The text of a statement. -/
def Statement.text (s : Statement) : Bytes :=
  match s.condition with
  | none => s.before ++ s.after
  | some toks => s.before ++ ascii " WHERE " ++ SqlBuilder.text toks ++ s.after

/-- The loop that joins the conditions. -/
def joined (conditions : List (List Tok)) : Option (List Tok) :=
  if conditions = [] then none else some ([Tok.and].intercalate conditions)

def build (b : Builder) : Except String Statement :=
  if b.table_ = [] then .error "Table name is required"
  else
    match b.sqlType with
    | .select => .ok ⟨b.selectHead, joined b.whereConditions_, b.selectTail⟩
    | .update =>
      if b.assignments = [] then .error "No assignments for UPDATE"
      else .ok ⟨ascii "UPDATE " ++ b.table_ ++ ascii " SET " ++ commaList b.assignments, joined b.whereConditions_, []⟩
    | .delete => .ok ⟨ascii "DELETE FROM " ++ b.table_, joined b.whereConditions_, []⟩

/-! ### Calls and their meaning -/

/-- A condition with the tree that its text has by precedence. -/
abbrev Expr := { c : Cond // c.Fits }

/-- The calls that pass a single test. -/
inductive Test where
  | eq (field value : Bytes)
  | ne (field value : Bytes)
  | gt (field value : Bytes)
  | ge (field value : Bytes)
  | lt (field value : Bytes)
  | le (field value : Bytes)
  | like (field pattern : Bytes)
  | notLike (field pattern : Bytes)
  | between (field start stop : Bytes)
  | notBetween (field start stop : Bytes)
  | isNull (field : Bytes)
  | isNotNull (field : Bytes)
  | exists_ (subquery : Bytes)
  | notExists (subquery : Bytes)

inductive Call where
  | where_ (c : Expr)
  | test (t : Test)
  | whereIn (field : Bytes) (values : List Bytes)
  | whereNotIn (field : Bytes) (values : List Bytes)
  | orWhere (c : Expr)

def Test.exec (b : Builder) : Test → Builder
  | .eq field value => b.whereEq field value
  | .ne field value => b.whereNe field value
  | .gt field value => b.whereGt field value
  | .ge field value => b.whereGe field value
  | .lt field value => b.whereLt field value
  | .le field value => b.whereLe field value
  | .like field pattern => b.whereLike field pattern
  | .notLike field pattern => b.whereNotLike field pattern
  | .between field start stop => b.whereBetween field start stop
  | .notBetween field start stop => b.whereNotBetween field start stop
  | .isNull field => b.whereIsNull field
  | .isNotNull field => b.whereIsNotNull field
  | .exists_ subquery => b.whereExists subquery
  | .notExists subquery => b.whereNotExists subquery

/-- The test as a condition of SQL. -/
def Test.text : Test → Bytes
  | .eq field value => field ++ ascii " = " ++ value
  | .ne field value => field ++ ascii " != " ++ value
  | .gt field value => field ++ ascii " > " ++ value
  | .ge field value => field ++ ascii " >= " ++ value
  | .lt field value => field ++ ascii " < " ++ value
  | .le field value => field ++ ascii " <= " ++ value
  | .like field pattern => field ++ ascii " LIKE " ++ pattern
  | .notLike field pattern => field ++ ascii " NOT LIKE " ++ pattern
  | .between field start stop => field ++ ascii " BETWEEN " ++ start ++ ascii " AND " ++ stop
  | .notBetween field start stop => field ++ ascii " NOT BETWEEN " ++ start ++ ascii " AND " ++ stop
  | .isNull field => field ++ ascii " IS NULL"
  | .isNotNull field => field ++ ascii " IS NOT NULL"
  | .exists_ subquery => ascii "EXISTS (" ++ subquery ++ ascii ")"
  | .notExists subquery => ascii "NOT EXISTS (" ++ subquery ++ ascii ")"

def exec (b : Builder) : Call → Builder
  | .where_ c => b.where_ c.1.toks
  | .test t => t.exec b
  | .whereIn field values => b.whereIn field values
  | .whereNotIn field values => b.whereNotIn field values
  | .orWhere c => b.orWhere c.1.toks

/-- The values of the parts at a row after a call. -/
def partsAfter (row : Bytes → Truth) (parts : List Truth) : Call → List Truth
  | .where_ c => parts ++ [c.1.value row]
  | .test t => parts ++ [row t.text]
  | .whereIn field values => parts ++ [if values = [] then .no else row (Builder.inTest field values)]
  | .whereNotIn field values => parts ++ [if values = [] then .yes else row (Builder.notInTest field values)]
  | .orWhere c =>
    match parts.getLast? with
    | some p => parts.dropLast ++ [p.or (c.1.value row)]
    | none => [c.1.value row]

/-- The parts of a sequence of calls. -/
def parts (row : Bytes → Truth) (calls : List Call) : List Truth := calls.foldl (partsAfter row) []

/-- The rows that a statement applies to. -/
def Selects (row : Bytes → Truth) (s : Statement) : Prop := ∀ toks ∈ s.condition, Satisfied row toks

/-- What the calls promise: the statement applies to the rows where every part holds. -/
def Means (calls : List Call) (s : Statement) : Prop := ∀ row, Selects row s ↔ ∀ t ∈ parts row calls, t = .yes

/-! ### Calls that may be joined -/

/-- The parts so far: for each condition whether it has an `OR` outside parentheses, and the value of an empty list that
came last. -/
structure Scan where
  exposed : List Bool
  pending : Option Bool

def scanPart (s : Scan) (exposed : Bool) : Option Scan :=
  if s.pending = some false then none else some ⟨s.exposed ++ [exposed], none⟩

/-- An empty `IN` list is only right when the first condition is an `or_where` behind it, and an empty `NOT IN` list when
no `or_where` is behind it. -/
def scanStep (s : Scan) : Call → Option Scan
  | .where_ c => scanPart s (c.1.rank = 2)
  | .test _ => scanPart s false
  | .whereIn _ values =>
    if values ≠ [] then scanPart s false
    else if s.pending = some false ∨ s.exposed ≠ [] then none
    else some ⟨[], some false⟩
  | .whereNotIn _ values =>
    if values ≠ [] then scanPart s false
    else if s.pending = some false then none
    else some ⟨s.exposed, some true⟩
  | .orWhere c =>
    if s.pending = some true then none
    else if s.exposed = [] then some ⟨[c.1.rank = 2], none⟩
    else some ⟨s.exposed.dropLast ++ [false], none⟩

/-- No empty list is left out wrongly, and no `OR` stands outside parentheses beside another condition. -/
def Joinable (calls : List Call) : Prop :=
  ∃ s, calls.foldlM scanStep ⟨[], none⟩ = some s ∧ s.pending ≠ some false ∧ (s.exposed.length ≤ 1 ∨ true ∉ s.exposed)

end NeForce.SqlBuilder
