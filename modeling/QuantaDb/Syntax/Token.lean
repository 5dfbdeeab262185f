import Mathlib
import QuantaDb.Lib.Binary64

/-!
# QuantaDb.Syntax.Token

Tokens and the spans of the text that they come from (`token.rs`, `error.rs` and
`Span` of `ast.rs`).
-/

namespace QuantaDb.Syntax

/-- `Span`: a range of bytes, without its end. -/
structure Span where
  start : Nat
  stop : Nat
deriving DecidableEq, Repr

/-- `Span::join`. -/
def Span.join (first second : Span) : Span := ⟨first.start, second.stop⟩

@[simp] theorem Span.join_start (a b : Span) : (a.join b).start = a.start := rfl
@[simp] theorem Span.join_stop (a b : Span) : (a.join b).stop = b.stop := rfl

/-- `SyntaxError`. -/
structure SyntaxError where
  message : String
  span : Span
deriving DecidableEq, Repr

/-- `Keyword`. -/
inductive Keyword where
  | and | as | asc | bigint | bool | boolean | begin | by | commit | create | delete | desc
  | double | drop | exists | false | float | from | if | insert | int | integer | into | index
  | is | key | limit | not | null | on | or | order | primary | rollback | select | set | start
  | table | text | true | transaction | unique | update | values | varchar | where | work
deriving DecidableEq, Repr

namespace Keyword

/-- The spelling of a keyword, which is also how it is displayed. -/
def spelling : Keyword → String
  | .and => "AND"
  | .as => "AS"
  | .asc => "ASC"
  | .bigint => "BIGINT"
  | .bool => "BOOL"
  | .boolean => "BOOLEAN"
  | .begin => "BEGIN"
  | .by => "BY"
  | .commit => "COMMIT"
  | .create => "CREATE"
  | .delete => "DELETE"
  | .desc => "DESC"
  | .double => "DOUBLE"
  | .drop => "DROP"
  | .exists => "EXISTS"
  | .false => "FALSE"
  | .float => "FLOAT"
  | .from => "FROM"
  | .if => "IF"
  | .insert => "INSERT"
  | .int => "INT"
  | .integer => "INTEGER"
  | .into => "INTO"
  | .index => "INDEX"
  | .is => "IS"
  | .key => "KEY"
  | .limit => "LIMIT"
  | .not => "NOT"
  | .null => "NULL"
  | .on => "ON"
  | .or => "OR"
  | .order => "ORDER"
  | .primary => "PRIMARY"
  | .rollback => "ROLLBACK"
  | .select => "SELECT"
  | .set => "SET"
  | .start => "START"
  | .table => "TABLE"
  | .text => "TEXT"
  | .true => "TRUE"
  | .transaction => "TRANSACTION"
  | .unique => "UNIQUE"
  | .update => "UPDATE"
  | .values => "VALUES"
  | .varchar => "VARCHAR"
  | .where => "WHERE"
  | .work => "WORK"

/-- All keywords. -/
def all : List Keyword :=
  [.and, .as, .asc, .bigint, .bool, .boolean, .begin, .by, .commit, .create, .delete, .desc,
   .double, .drop, .exists, .false, .float, .from, .if, .insert, .int, .integer, .into,
   .index, .is, .key, .limit, .not, .null, .on, .or, .order, .primary, .rollback, .select,
   .set, .start, .table, .text, .true, .transaction, .unique, .update, .values, .varchar,
   .where, .work]

/-- `Keyword::from_identifier`. -/
def fromIdentifier (identifier : String) : Option Keyword :=
  all.find? fun keyword => keyword.spelling == identifier.map Char.toUpper

end Keyword

/-- `TokenKind`. -/
inductive TokenKind where
  | keyword (keyword : Keyword)
  | identifier (value : String) (quoted : Bool)
  | number (raw : String)
  | string (value : String)
  | comma
  | dot
  | star
  | leftParen
  | rightParen
  | semicolon
  | equal
  | notEqual
  | lessThan
  | lessThanOrEqual
  | greaterThan
  | greaterThanOrEqual
  | plus
  | minus
  | slash
  | percent
  | eof
deriving DecidableEq, Repr

/-- `Token`. -/
structure Token where
  kind : TokenKind
  span : Span
deriving DecidableEq, Repr

/-- What is used of the standard library on characters and numbers. -/
structure TextOps where
  isWhitespace : Char → Bool
  isAlphabetic : Char → Bool
  isAlphanumeric : Char → Bool
  toLowercase : String → String
  /-- `parse::<f64>` -/
  parseFloat : String → Option Binary64
  newline_isWhitespace : isWhitespace '\n' = true

/-- The operations on ASCII characters, for texts without fractions. -/
def TextOps.ascii : TextOps where
  isWhitespace c := c = ' ' || '\t' ≤ c && c ≤ '\r'
  isAlphabetic := Char.isAlpha
  isAlphanumeric := Char.isAlphanum
  toLowercase value := value.map Char.toLower
  parseFloat _ := none
  newline_isWhitespace := by decide

end QuantaDb.Syntax
