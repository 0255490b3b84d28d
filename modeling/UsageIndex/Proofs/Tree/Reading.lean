import UsageIndex.Tree.Json

/-!
How a tree is read, construct by construct. What is written has to tell the fields of a record, the
alternatives of a choice and the absence of an optional part from one another; it does for every
kind of node.
-/

set_option autoImplicit false

namespace UsageIndex

namespace Form

def isRecord : Form → Bool
  | .done | .slot _ _ _ _ => true
  | _ => false

def tags : Form → List String
  | .either tag _ rest => tag :: tags rest
  | _ => []

def mayBeNull : Form → Bool
  | .optional _ | .nothing => true
  | _ => false

/-- Whether what is written of a tree tells it from the other trees of the form, given that this
is so for each kind of node. -/
def isReadable : Form → Bool
  | .token | .element | .node _ | .done | .never => true
  | .optional f => f.isReadable && !f.mayBeNull
  | .many f => f.isReadable
  | .nothing => false
  | .slot name _ f rest =>
    f.isReadable && rest.isRecord && rest.isReadable && !rest.fieldNames.contains name
  | .either tag f rest =>
    (f == .nothing || f.isReadable) && rest.isChoice && rest.isReadable && !rest.tags.contains tag

theorem isChoice_eq_false {f : Form} (h : f.isRecord = true) : f.isChoice = false := by
  cases f with
  | never => cases h
  | either tag f rest => cases h
  | _ => rfl

theorem mayBeNull_eq_false {f : Form} (h : (f.isRecord || f.isChoice) = true) :
    f.mayBeNull = false := by
  cases f with
  | optional f => cases h
  | nothing => cases h
  | _ => rfl

theorem nodup_fieldNames {f : Form} (hf : f.isReadable = true) : f.fieldNames.Nodup := by
  induction f with
  | slot name omissible f rest ihf ihrest =>
    simp only [isReadable, Bool.and_eq_true, Bool.not_eq_true', List.contains_eq_mem,
      decide_eq_false_iff_not] at hf
    exact List.nodup_cons.2 ⟨hf.2, ihrest hf.1.2⟩
  | _ => exact List.nodup_nil

end Form

theorem NodeKind.isReadable_form (k : NodeKind) :
    k.form.isReadable = true ∧ (k.form.isRecord || k.form.isChoice) = true := by
  cases k <;> decide +kernel

namespace Tree

def inside? : (limit : Nat) → Option Decoder
  | 0 => none
  | limit + 1 => some (decodeWithin? limit)

theorem decodeWithin?_eq (limit : Nat) : decodeWithin? limit = decodeWith? (inside? limit) := by
  cases limit <;> rfl

theorem decodeWithin?_body {f : Form} (h : (f.isRecord || f.isChoice) = true) (limit : Nat)
    (j : Json) : decodeWithin? limit f j = decodeBody? (inside? limit) f j := by
  rw [decodeWithin?_eq]
  cases f with
  | done => rfl
  | slot name omissible f rest => rfl
  | never => rfl
  | either tag f rest => rfl
  | _ => cases h

theorem decodeWithin?_node (k : NodeKind) (limit : Nat) (j : Json) :
    decodeWithin? limit (.node k) j = (decodeWithin? limit k.form j).map (.node k) := by
  rw [decodeWithin?_body k.isReadable_form.2, decodeWithin?_eq]
  rfl

theorem decodeWithin?_optional {f : Form} {j : Json} (h : j ≠ .null) (limit : Nat) :
    decodeWithin? limit (.optional f) j = (decodeWithin? limit f j).map .present := by
  rw [decodeWithin?_eq, decodeWith?]
  exact h

theorem decodeWithin?_cons (limit : Nat) (f : Form) (j : Json) (js : List Json) :
    decodeWithin? (limit + 1) (.many f) (.array (j :: js)) =
      (decodeWithin? limit f j).bind fun x =>
        (decodeWithin? (limit + 1) (.many f) (.array js)).map (.cons x) := by
  simp only [decodeWithin?, decodeWith?, List.mapM_cons, Option.bind_eq_bind, Option.bind_some]
  cases decodeWithin? limit f j with
  | none => rfl
  | some x => cases js.mapM (decodeWithin? limit f) <;> rfl

theorem decodeFields?_slot (inner : Decoder) (name : String) (omissible : Bool) (f rest : Form)
    (j : Json) (gs : List Json.Given) :
    decodeFields? inner (.slot name omissible f rest) (.value j :: gs) =
      (inner f j).bind fun x => (decodeFields? inner rest gs).map (.slot x) := by
  rw [decodeFields?, decodeField?]
  cases inner f j with
  | none => rfl
  | some x => cases decodeFields? inner rest gs <;> rfl

theorem decodeBare?_there {tag other : String} (h : tag ≠ other) (f rest : Form) :
    decodeBare? other (.either tag f rest) = (decodeBare? other rest).map .there := by
  cases f <;> simp [decodeBare?, h]

theorem decodeTagged?_here {f : Form} (hf : f ≠ .nothing) (inner : Decoder) (tag : String)
    (content : Json) (rest : Form) :
    decodeTagged? inner tag content (.either tag f rest) = (inner f content).map .here := by
  cases f with
  | nothing => exact absurd rfl hf
  | _ => simp [decodeTagged?]

theorem decodeTagged?_there {tag other : String} (h : tag ≠ other) (inner : Decoder)
    (content : Json) (f rest : Form) :
    decodeTagged? inner other content (.either tag f rest) =
      (decodeTagged? inner other content rest).map .there := by
  cases f <;> simp [decodeTagged?, h]

theorem bind_ite_some {α β γ : Type} (p q : Prop) [Decidable p] [Decidable q] (a : α) (b : β)
    (g : α → β → γ) :
    ((if p then some a else none).bind fun x => (if q then some b else none).map (g x)) =
      if p ∧ q then some (g a b) else none := by
  by_cases hp : p <;> by_cases hq : q <;> simp [hp, hq]

end Tree

end UsageIndex
