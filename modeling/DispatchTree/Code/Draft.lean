/-! Drafts of generated code.
A draft grows at its end, by guards and statements that its layout spells.  The compact layout puts
everything on one line; the pretty one gives each piece a line of its own, behind the margin and as
many spaces as its nesting asks for. -/
namespace DispatchTree

inductive Layout where
  | compact
  | pretty (indent : Nat)
  deriving DecidableEq

namespace Layout

def standard : Layout := pretty 2

end Layout

def spaces (n : Nat) : String := String.ofList (List.replicate n ' ')

@[simp] theorem toList_spaces (n : Nat) : (spaces n).toList = List.replicate n ' ' := by
  simp [spaces]

def openBrace : String := String.singleton '{'

@[simp] theorem toList_openBrace : openBrace.toList = ['{'] := String.toList_singleton _

def closeBrace : String := String.singleton '}'

/-- Text in progress, with the number of guards that are open at its end. -/
structure Draft where
  layout : Layout
  margin : String
  level : Nat
  text : String
  deriving DecidableEq

namespace Draft

def new (layout : Layout) (margin : String) : Draft := ⟨layout, margin, 0, ""⟩

def append (d : Draft) (piece : String) : Draft := { d with text := d.text ++ piece }

@[simp] theorem layout_append (d : Draft) (piece : String) : (d.append piece).layout = d.layout :=
  rfl
@[simp] theorem level_append (d : Draft) (piece : String) : (d.append piece).level = d.level := rfl
@[simp] theorem text_append (d : Draft) (piece : String) :
    (d.append piece).text = d.text ++ piece := rfl

/-- Adds a line of the pretty layout, at the level of the draft. -/
def putLine (d : Draft) (indent : Nat) (piece : String) : Draft :=
  d.append (d.margin ++ spaces (d.level * indent) ++ piece ++ "\n")

@[simp] theorem layout_putLine (d : Draft) (indent : Nat) (piece : String) :
    (d.putLine indent piece).layout = d.layout := rfl
@[simp] theorem level_putLine (d : Draft) (indent : Nat) (piece : String) :
    (d.putLine indent piece).level = d.level := rfl
@[simp] theorem text_putLine (d : Draft) (indent : Nat) (piece : String) :
    (d.putLine indent piece).text =
      d.text ++ (d.margin ++ spaces (d.level * indent) ++ piece ++ "\n") := rfl

def enter (d : Draft) (condition : String) : Draft :=
  match d.layout with
  | .compact => d.append ("if(" ++ condition ++ ")" ++ openBrace)
  | .pretty indent =>
    let d := (d.putLine indent ("if (" ++ condition ++ ")")).putLine indent openBrace
    { d with level := d.level + 1 }

@[simp] theorem layout_enter (d : Draft) (condition : String) :
    (d.enter condition).layout = d.layout := by
  cases h : d.layout <;> simp [enter, h]

def leave (d : Draft) : Draft :=
  match d.layout with
  | .compact => d.append closeBrace
  | .pretty indent => { d with level := d.level - 1 }.putLine indent closeBrace

@[simp] theorem layout_leave (d : Draft) : d.leave.layout = d.layout := by
  cases h : d.layout <;> simp [leave, h]

def put (d : Draft) (piece : String) : Draft :=
  match d.layout with
  | .compact => d.append piece
  | .pretty indent => d.putLine indent piece

@[simp] theorem layout_put (d : Draft) (piece : String) :
    (d.put piece).layout = d.layout := by
  cases h : d.layout <;> simp [put, h]

/-- Adds a statement inside a guard of its own. -/
def putUnder (d : Draft) (condition piece : String) : Draft :=
  match d.layout with
  | .compact => ((d.enter condition).append (" " ++ piece ++ " ")).leave
  | .pretty _ => ((d.enter condition).put piece).leave

@[simp] theorem layout_putUnder (d : Draft) (condition piece : String) :
    (d.putUnder condition piece).layout = d.layout := by
  cases h : d.layout <;> simp [putUnder, h]
@[simp] theorem level_putUnder (d : Draft) (condition piece : String) :
    (d.putUnder condition piece).level = d.level := by
  cases h : d.layout <;> simp [putUnder, enter, leave, put, h]

/-- The text of the draft, with the draft that is left without it; open guards stay open. -/
def take (d : Draft) : String × Draft := (d.text, { d with text := "" })

end Draft
end DispatchTree
