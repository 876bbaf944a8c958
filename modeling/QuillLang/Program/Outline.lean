import QuillLang.Program.Basic
import QuillLang.Text.Outline
/-!
# A program as an outline

Every node with its parts by name, down to the positions: the form in which a program is shown for inspection.
-/
namespace QuillLang

def Position.outline (p : Position) : Outline :=
  .record "Position" [("line", .atom (Decimal.ofNat p.line)), ("column", .atom (Decimal.ofNat p.column)),
    ("offset", .atom (Decimal.ofNat p.offset))]

def Span.outline (s : Span) : Outline :=
  .record "Span" [("start", s.start.outline), ("end", s.stop.outline)]

def Ident.outline (i : Ident) : Outline :=
  .record "Ident" [("name", .atom (Quoted.quote i.name)), ("span", i.span.outline)]

def BinaryOp.outlineName : BinaryOp → String
  | add => "Add"
  | sub => "Sub"
  | mul => "Mul"
  | div => "Div"
  | rem => "Rem"
  | eq => "Eq"
  | ne => "Ne"
  | lt => "Lt"
  | le => "Le"
  | gt => "Gt"
  | ge => "Ge"

def TrigFunc.outlineName : TrigFunc → String
  | sin => "Sin"
  | cos => "Cos"

/-- A node: what it is, and where it was read. -/
def Outline.node (name : String) (kind : Outline) (span : Span) : Outline :=
  .record name [("kind", kind), ("span", span.outline)]

def Expr.outline : Expr → Outline
  | var name span => .node "Expr" (.tuple "Identifier" [.atom (Quoted.quote name)]) span
  | number value span => .node "Expr" (.tuple "Number" [.atom (Decimal.ofInt64 value)]) span
  | string text span => .node "Expr" (.tuple "Str" [.atom (Quoted.quote text)]) span
  | index array position span =>
    .node "Expr" (.record "ArrayAccess" [("name", array.outline), ("index", position.outline)]) span
  | binary op left right span =>
    .node "Expr"
      (.record "Binary" [("op", .atom op.outlineName), ("left", left.outline), ("right", right.outline)]) span
  | neg operand span => .node "Expr" (.tuple "Neg" [operand.outline]) span
  | trig func degrees scale span =>
    .node "Expr"
      (.record "Trig" [("func", .atom func.outlineName), ("degrees", degrees.outline), ("scale", scale.outline)]) span
  | random seed limit span =>
    .node "Expr" (.record "Random" [("seed", seed.outline), ("limit", limit.outline)]) span

def Graphics.outline : Graphics → Outline
  | init => .atom "Init"
  | window t w h => .record "Window" [("title", t.outline), ("width", w.outline), ("height", h.outline)]
  | delay m => .record "Delay" [("millis", m.outline)]
  | poll => .atom "PollEvents"
  | surface w h => .record "CreateSurface" [("width", w.outline), ("height", h.outline)]
  | pixel x y => .record "PutPixel" [("x", x.outline), ("y", y.outline)]
  | getPixel x y r => .record "GetPixel" [("x", x.outline), ("y", y.outline), ("result", r.outline)]
  | present => .atom "Present"
  | clear => .atom "Clear"
  | color r g b => .record "SetColor" [("r", r.outline), ("g", g.outline), ("b", b.outline)]
  | line x1 y1 x2 y2 =>
    .record "DrawLine" [("x1", x1.outline), ("y1", y1.outline), ("x2", x2.outline), ("y2", y2.outline)]

mutual

def Stmt.outline : Stmt → Outline
  | .make name value span =>
    .node "Stmt" (.record "VariableDeclaration" [("name", name.outline), ("init", value.outline)]) span
  | .assign name value span =>
    .node "Stmt" (.record "Assignment" [("name", name.outline), ("value", value.outline)]) span
  | .makeArray name size span =>
    .node "Stmt" (.record "ArrayDeclaration" [("name", name.outline), ("size", size.outline)]) span
  | .assignArray name position value span =>
    .node "Stmt"
      (.record "ArrayAssignment" [("name", name.outline), ("index", position.outline), ("value", value.outline)]) span
  | .when test body span =>
    .node "Stmt" (.record "If" [("test", test.outline), ("body", .list (Stmt.outlineAll body))]) span
  | .loop test body span =>
    .node "Stmt" (.record "While" [("test", test.outline), ("body", .list (Stmt.outlineAll body))]) span
  | .print value span => .node "Stmt" (.record "Print" [("value", value.outline)]) span
  | .free name span => .node "Stmt" (.record "Free" [("name", name.outline)]) span
  | .func name params body span =>
    .node "Stmt"
      (.tuple "FunctionDeclaration"
        [.record "FuncDecl"
          [("name", name.outline), ("params", .list (params.map Ident.outline)),
            ("body", .list (Stmt.outlineAll body)), ("span", span.outline)]]) span
  | .ret name span => .node "Stmt" (.record "Return" [("name", name.outline)]) span
  | .call callee args result span =>
    .node "Stmt"
      (.tuple "Call"
        [.record "CallStmt"
          [("callee", callee.outline), ("args", .list (args.map Expr.outline)),
            ("result", .optional (result.map Ident.outline))]]) span
  | .graphics op span => .node "Stmt" (.tuple "Runtime" [op.outline]) span

def Stmt.outlineAll : List Stmt → List Outline
  | [] => []
  | s :: rest => s.outline :: Stmt.outlineAll rest

end

def Program.outline (p : Program) : Outline :=
  .record "Program" [("statements", .list (Stmt.outlineAll p.statements)), ("span", p.span.outline)]

end QuillLang
