import DataCalculus.Surface.Head
import DataCalculus.Term.Basic

/-!
# Surface forms of terms and values

Each term and each value has one canonical tree. The types of function literals are not written,
and neither are dependencies: both follow from the parts.
-/

namespace DataCalculus

set_option autoImplicit false

mutual

def Value.toJson : Value → Json
  | .mk ty tag args => .arr (.str (Surface.Head.construct ty tag).spelling :: Value.toJsons args)

def Value.toJsons : List Value → List Json
  | [] => []
  | arg :: args => arg.toJson :: Value.toJsons args

end

def Param.toJson (p : Param) : Json := .str p.display

mutual

def Term.toJson : Term → Json
  | .free name ty => .str (name ++ ":" ++ ty)
  | .construct ty tag args _ =>
    .arr (.str (Surface.Head.construct ty tag).spelling :: Term.toJsons args)
  | .func f => f.toJson
  | .call f args _ =>
    .arr (.str (Surface.Head.call f.ty).spelling :: f.toJson :: Term.toJsons args)
  | .caseOf ty scrutinee branches _ =>
    .arr [.str (Surface.Head.caseOf ty).spelling, scrutinee.toJson,
      .obj (Func.toFields branches)]

def Term.toJsons : List Term → List Json
  | [] => []
  | t :: ts => t.toJson :: Term.toJsons ts

def Func.toJson : Func → Json
  | .mk params body _ => .arr [.arr (params.map Param.toJson), body.toJson]

def Func.toFields : List (Name × Func) → List (String × Json)
  | [] => []
  | (tag, f) :: branches => (tag, f.toJson) :: Func.toFields branches

end

def Term.text (t : Term) : String := t.toJson.text

end DataCalculus
