import ObjectTables.Shell.Builtin.Options
import ObjectTables.Shell.Condition
import ObjectTables.Shell.Printing
/-!
Commands that write their arguments, and `test`.
-/
namespace ObjectTables.Shell.Builtin

/-- Writes the arguments. -/
def echo (arguments : List Bytes) : Act Nat := do
  modify (·.print (Printing.echo arguments))
  return 0

/-- Writes arguments in a format. What is wrong with them is said before. -/
def printf (arguments : List Bytes) : Act Nat := do
  match ← Options.operands arguments with
  | [] => Act.failWith "usage: printf format [arg ...]"
  | format :: rest =>
    let p := Printing.printf format rest
    p.complaints.forM fun c => modify (·.complain c.message)
    match p.fault? with
    | none =>
      modify (·.print p.output)
      return if p.complaints.isEmpty then 0 else 1
    | some fault =>
      modify fun m => ((m.complain fault.message).print p.output).finish 2
      throw .failed

/-- Decides a condition, which may have to end in a bracket. -/
def test (isBracket : Bool) (arguments : List Bytes) : Act Nat := do
  if isBracket && (arguments.getLast?.bind (·.head?)) != some (code ']') then Act.failWith "missing ]"
  return if ← Condition.evaluate false (if isBracket then arguments.dropLast else arguments) then 0 else 1

end ObjectTables.Shell.Builtin
