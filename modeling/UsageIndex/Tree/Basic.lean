import UsageIndex.Source
import UsageIndex.Element.Basic
import UsageIndex.Tree.Form

/-!
Source trees. One family of types, indexed by form, holds every node of the grammar, so an
ill-formed tree cannot be written down and a function on trees is one recursion.
-/

set_option autoImplicit false

namespace UsageIndex

inductive Tree : Form → Type where
  | token (t : Token) : Tree .token
  | element (id : ElementId) : Tree .element
  | node (k : NodeKind) (body : Tree k.form) : Tree (.node k)
  | absent {f : Form} : Tree (.optional f)
  | present {f : Form} (t : Tree f) : Tree (.optional f)
  | nil {f : Form} : Tree (.many f)
  | cons {f : Form} (head : Tree f) (tail : Tree (.many f)) : Tree (.many f)
  | nothing : Tree .nothing
  | done : Tree .done
  | slot {name : String} {omissible : Bool} {f rest : Form} (head : Tree f) (tail : Tree rest) :
      Tree (.slot name omissible f rest)
  | here {tag : String} {f rest : Form} (t : Tree f) : Tree (.either tag f rest)
  | there {tag : String} {f rest : Form} (t : Tree rest) : Tree (.either tag f rest)

abbrev Node (k : NodeKind) := Tree (.node k)

namespace Tree

def toToken : Tree .token → Token
  | .token t => t

def toElement : Tree .element → ElementId
  | .element id => id

def toOption {f : Form} : Tree (.optional f) → Option (Tree f)
  | .absent => none
  | .present t => some t

/-- What a tree has as items: those of a list are trees, and no other tree has any. -/
def Items : Form → Type
  | .many f => List (Tree f)
  | _ => Unit

def items {f : Form} : Tree f → Items f
  | .nil => []
  | .cons x xs => x :: xs.items
  | .token _ => ()
  | .element _ => ()
  | .node _ _ => ()
  | .absent => ()
  | .present _ => ()
  | .nothing => ()
  | .done => ()
  | .slot _ _ => ()
  | .here _ => ()
  | .there _ => ()

def toList {f : Form} (t : Tree (.many f)) : List (Tree f) := t.items

def ofList {f : Form} : List (Tree f) → Tree (.many f)
  | [] => .nil
  | x :: xs => .cons x (ofList xs)

@[simp] theorem toList_nil {f : Form} : (Tree.nil : Tree (.many f)).toList = [] := rfl

@[simp] theorem toList_cons {f : Form} (x : Tree f) (xs : Tree (.many f)) :
    (Tree.cons x xs).toList = x :: xs.toList := rfl

@[simp] theorem toList_ofList {f : Form} (xs : List (Tree f)) : (ofList xs).toList = xs := by
  induction xs with
  | nil => rfl
  | cons x xs ih => simp [ofList, ih]

def tokens {f : Form} : Tree f → List Token
  | .token t => [t]
  | .element _ => []
  | .node _ body => body.tokens
  | .absent => []
  | .present t => t.tokens
  | .nil => []
  | .cons x xs => x.tokens ++ xs.tokens
  | .nothing => []
  | .done => []
  | .slot x xs => x.tokens ++ xs.tokens
  | .here t => t.tokens
  | .there t => t.tokens

end Tree

end UsageIndex
