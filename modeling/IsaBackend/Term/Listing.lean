import IsaBackend.Term.Basic

/-!
# Listings of terms

Terms on one line, for messages and traces.
-/

namespace IsaBackend

def Literal.render : Literal → String
  | unit => "()"
  | bool value => toString value
  | bit value => if value then "bitone" else "bitzero"
  | num value => toString value
  | hex digits => "0x" ++ digits
  | bin digits => "0b" ++ digits
  | string text => Quoted.quote text
  | undefined => "undefined"

namespace Atom

mutual

def render : Atom → String
  | lit value _ => value.render
  | name key _ _ => key
  | refTo key _ => "&" ++ key
  | tuple elems => "(" ++ String.intercalate ", " (renderAll elems) ++ ")"
  | list elems _ => "[|" ++ String.intercalate ", " (renderAll elems) ++ "|]"
  | vector elems _ => "[" ++ String.intercalate ", " (renderAll elems) ++ "]"
  | inline expr _ => "\x7b" ++ expr.render ++ "\x7d"

def renderAll : List Atom → List String
  | [] => []
  | atom :: rest => atom.render :: renderAll rest

end

end Atom

namespace Term

mutual

def render : Term → String
  | atom value => value.render
  | call callee args _ => callee ++ "(" ++ String.intercalate ", " (Atom.renderAll args) ++ ")"
  | cast inner ty => "(" ++ inner.render ++ " : " ++ ty.render ++ ")"
  | assign target _ value => target ++ " = " ++ value.render
  | bind name ty init body _ =>
    "let " ++ name ++ " : " ++ ty.render ++ " = " ++ init.render ++ " in " ++ body.render
  | block stmts last _ => "\x7b " ++ renderStmts stmts ++ last.render ++ " \x7d"
  | ret value _ => "return " ++ value.render
  | cond test onTrue onFalse _ =>
    "if " ++ test.render ++ " then " ++ onTrue.render ++ " else " ++ onFalse.render
  | field record key _ => record.render ++ "." ++ key
  | update record fields _ =>
    let change := fun (entry : String × Atom) => entry.1 ++ " = " ++ entry.2.render
    "\x7b " ++ record.render ++ " with " ++ String.intercalate ", " (fields.map change) ++ " \x7d"
  | count var first last step direction body =>
    "foreach (" ++ var ++ " from " ++ first.render ++ " to " ++ last.render ++ " by " ++
      step.render ++ " in " ++ direction.render ++ ") " ++ body.render
  | loop .whileTrue test body => "while " ++ test.render ++ " do " ++ body.render
  | loop .untilTrue test body => "repeat " ++ body.render ++ " until " ++ test.render

def renderStmts : List Term → String
  | [] => ""
  | stmt :: rest => stmt.render ++ "; " ++ renderStmts rest

end

end Term

end IsaBackend
