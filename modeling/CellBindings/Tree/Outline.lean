import CellBindings.Text.Basic
import CellBindings.Tree.Basic

/-!
The outline of a tree: one line for each node in pre-order, indented by its depth, with kind, span
and source text. Line breaks in the text are written as a backslash and an `n`, so that each node
keeps to its line; nothing else is escaped. A span that names no piece of the source shows no text.
-/

namespace CellBindings.Node

def decimal (n : Nat) : Text := Nat.toDigits 10 n

def showBreaks : Text → Text
  | [] => []
  | c :: cs => if c = '\n' then '\\' :: 'n' :: showBreaks cs else c :: showBreaks cs

def outlineLine (source : Text) (depth : Nat) (kind : Kind) (span : Span) : Text :=
  List.replicate (2 * depth) ' ' ++ kind.name.toList ++ '[' :: decimal span.start ++
    ',' :: decimal span.stop ++ [']', ':', ' ', '\x22'] ++
    showBreaks ((source.slice? span).getD []) ++ ['\x22', '\n']

mutual

def outlineAt (source : Text) (depth : Nat) : Node → Text
  | ⟨kind, span, children⟩ =>
    outlineLine source depth kind span ++ outlineAllAt source (depth + 1) children

def outlineAllAt (source : Text) (depth : Nat) : List Node → Text
  | [] => []
  | node :: rest => outlineAt source depth node ++ outlineAllAt source depth rest

end

def outline (source : Text) (node : Node) : Text := outlineAt source 0 node

end CellBindings.Node
