import IsaBackend.Code.Basic
import IsaBackend.Text.Lines

/-!
# Listings of code

One line for each instruction, indented by two blanks for each level of nesting.
-/

namespace IsaBackend

def Operand.render : Operand → String
  | name key _ => key
  | inline expr _ => expr.render

def Place.render : Place → String
  | name key _ => key
  | field base key _ => base.render ++ "." ++ key
  | deref key _ => "*" ++ key

namespace Instr

mutual

def render (depth : Nat) : Instr → String
  | decl rep name => indentation depth ++ rep.render ++ " " ++ name ++ "\n"
  | alloc rep name => indentation depth ++ rep.render ++ " " ++ name ++ " = alloc\n"
  | init rep name value =>
    indentation depth ++ rep.render ++ " " ++ name ++ " = alloc " ++ value.render ++ "\n"
  | branch test onTrue onFalse _ =>
    indentation depth ++ "if " ++ test.render ++ " \x7b\n" ++
      renderAll (depth + 1) onTrue ++
      indentation depth ++ "\x7d else \x7b\n" ++
      renderAll (depth + 1) onFalse ++
      indentation depth ++ "\x7d\n"
  | call dest callee args =>
    indentation depth ++ dest.render ++ " = " ++ callee ++ "(" ++
      String.intercalate ", " (args.map Operand.render) ++ ")\n"
  | convert dest value =>
    indentation depth ++ dest.render ++ " = (" ++ dest.rep.render ++ ") " ++ value.render ++ "\n"
  | assign dest value => indentation depth ++ dest.render ++ " = " ++ value.render ++ "\n"
  | copy dest value => indentation depth ++ dest.render ++ " := " ++ value.render ++ "\n"
  | release _ name => indentation depth ++ "clear " ++ name ++ "\n"
  | ret value => indentation depth ++ "return " ++ value.render ++ "\n"
  | comment text => indentation depth ++ "// " ++ text ++ "\n"
  | loop body =>
    indentation depth ++ "loop \x7b\n" ++ renderAll (depth + 1) body ++
      indentation depth ++ "\x7d\n"
  | leave => indentation depth ++ "break\n"

def renderAll (depth : Nat) : List Instr → String
  | [] => ""
  | instr :: rest => instr.render depth ++ renderAll depth rest

end

end Instr

def Routine.render (routine : Routine) : String :=
  let param := fun (entry : String × Rep) => entry.1 ++ ": " ++ entry.2.render
  "fn " ++ routine.name ++ "(" ++ String.intercalate ", " (routine.params.map param) ++ ") -> " ++
    routine.result.render ++ " \x7b\n" ++ Instr.renderAll 1 routine.body ++ "\x7d\n"

end IsaBackend
