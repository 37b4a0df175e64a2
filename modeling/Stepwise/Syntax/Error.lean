import Stepwise.Breakdown

/-!
# Syntax errors

What can be wrong with the text of an expression or a statement.
-/

namespace Stepwise

inductive Complaint
  | expected (word : Text)
  | expectedName
  | expectedProperty
  | unexpected
  | unexpectedAfterBrace
  | unsupportedExpression
  | arrowFunction
  | invalidKey
  | missingInitializer

/-- Why a text is not an expression or a statement of the language. -/
inductive SyntaxError
  /-- a complaint about the next token, none at the end of the text -/
  | near (complaint : Complaint) (token : Option Text)
  /-- a stray character, or a text that is never closed -/
  | invalidToken
  /-- a statement of the full language that is left out here -/
  | unsupportedStatement (word : Text)
  /-- something other than a name, an index or a member is assigned to -/
  | invalidTarget
  | unterminatedTemplate
  | emptyExpression
  /-- a number that cannot be read; there is nothing wrong with its form -/
  | numeral (why : Breakdown)
  /-- a word where it cannot stand -/
  | misplaced (word : Text)
  /-- the parser was given too little fuel -/
  | exhausted

def Complaint.message : Complaint → Text
  | expected word => "Expected '".codes ++ word ++ "'".codes
  | expectedName => "Expected identifier".codes
  | expectedProperty => "Expected property name".codes
  | unexpected => "Unexpected token".codes
  | unexpectedAfterBrace => "Unexpected token after '\x7d'".codes
  | unsupportedExpression => "Unsupported expression".codes
  | arrowFunction => "Arrow functions are not supported".codes
  | invalidKey => "Invalid object key".codes
  | missingInitializer => "Missing initializer in declaration".codes

def SyntaxError.message : SyntaxError → Text
  | near complaint token =>
    complaint.message ++ " near '".codes ++ token.getD "end of line".codes ++ "'".codes
  | invalidToken => "Invalid or unexpected token".codes
  | unsupportedStatement word => "Unsupported statement '".codes ++ word ++ "'".codes
  | invalidTarget => "Invalid left-hand side in assignment".codes
  | unterminatedTemplate => "Unterminated template expression".codes
  | emptyExpression => "Empty expression".codes
  | numeral why => why.message
  | misplaced word => "Unexpected token '".codes ++ word ++ "'".codes
  | exhausted => "Nesting too deep".codes

end Stepwise
