import AuditFields.Schema.Basic
import AuditFields.Schema.Token

/-!
# Faults of schema documents

Why a text is no schema document, and the messages that say so. A fault is either about the text
(a place where no token starts, a token that cannot come next, a text without definitions) or about
what a well-formed part means (an escape, a directive location, a type defined twice).
-/

namespace AuditFields.Schema

/-- Why a text is refused as a schema document. -/
inductive Fault where
  | empty
  | unreadable (shown : String)
  | unexpectedEnd
  | unexpected (token : Token)
  | badString (digits : String)
  | unknownLocation (name : String)
  | duplicateType (name : String)
  deriving DecidableEq, Repr

def Punctuator.describe : Punctuator → String
  | .ampersand => "ampersand ('&')"
  | .at => "at ('@')"
  | .closeBrace => "closing brace ('\x7d')"
  | .closeBracket => "closing bracket (']')"
  | .closeParen => "closing paren (')')"
  | .colon => "colon (':')"
  | .dollar => "dollar ('$')"
  | .equals => "equals ('=')"
  | .bang => "exclamation mark ('!')"
  | .openBrace => "open brace ('\x7b')"
  | .openBracket => "open bracket ('[')"
  | .openParen => "open parenthesis ('(')"
  | .period => "period ('.')"
  | .doublePeriod => "double period ('..')"
  | .pipe => "pipe ('|')"
  | .spread => "spread ('...')"

def keywords : List String :=
  ["schema", "query", "mutation", "subscription", "type", "input", "true", "false", "null",
   "implements", "interface", "enum", "union", "scalar", "extend", "directive", "repeatable", "on",
   "fragment"]

def Token.describe : Token → String
  | .punctuator p => p.describe
  | .name "null" => "null,"
  | .name text =>
    if keywords.contains text then text else "non-variable identifier (e.g. 'x' or 'Foo')"
  | .int _ => "integer value (e.g. '0' or '42')"
  | .float _ => "floating point value (e.g. '3.14')"
  | .badNumber => "unsupported number (int or float) literal"
  | .string _ => "string literal (e.g. '\"...\"')"
  | .badString _ => "string literal (e.g. '\"...\"')"
  | .block _ => "block string (e.g. '\"\"\"hi\"\"\"')"
  | .unreadable shown => shown

def Fault.message : Fault → String
  | .empty => "the graphql document was empty, please provide at least one definition"
  | .unreadable shown => "invalid token: " ++ shown
  | .unexpectedEnd => "unexpected end of file"
  | .unexpected token => "unexpected " ++ token.describe ++ " token"
  | .badString digits =>
    "malformed string literal: " ++ digits ++ " is not a valid unicode code point"
  | .unknownLocation name =>
    "unknown directive location: " ++ name ++ ". expected one of " ++
      Text.joinWith ", " (Location.all.map Location.render)
  | .duplicateType name => "The type `" ++ name ++ "` is defined more than once."

end AuditFields.Schema
