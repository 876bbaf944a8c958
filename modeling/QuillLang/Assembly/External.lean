import QuillLang.Assembly.Builder
/-!
# External routines

What a compiled program is linked with: a few routines of the C library for texts, output and mathematics, and the
graphics runtime.
-/
namespace QuillLang

structure External where
  name : String
  signature : CallSignature
  deriving DecidableEq

namespace External

/-- Declared in every assembly. -/
def core : List External :=
  [⟨"printf", [.ptr], .i32, true⟩,
    ⟨"sprintf", [.ptr, .ptr], .i32, true⟩,
    ⟨"malloc", [.i64], .ptr, false⟩,
    ⟨"free", [.ptr], .void, false⟩,
    ⟨"strcpy", [.ptr, .ptr], .ptr, false⟩,
    ⟨"strcat", [.ptr, .ptr], .ptr, false⟩,
    ⟨"strcmp", [.ptr, .ptr], .i32, false⟩,
    ⟨"strlen", [.ptr], .i64, false⟩,
    ⟨"atol", [.ptr], .i64, false⟩,
    ⟨"sin", [.double], .double, false⟩,
    ⟨"cos", [.double], .double, false⟩,
    ⟨"exit", [.i32], .void, false⟩]

/-- Declared when a program draws. -/
def graphics : List External :=
  [⟨"gfx_init", [], .void, false⟩,
    ⟨"gfx_window", [.ptr, .i64, .i64], .void, false⟩,
    ⟨"gfx_delay", [.i64], .void, false⟩,
    ⟨"gfx_poll_events", [], .i64, false⟩,
    ⟨"gfx_surface", [.i64, .i64], .void, false⟩,
    ⟨"gfx_put_pixel", [.i64, .i64], .void, false⟩,
    ⟨"gfx_get_pixel", [.i64, .i64], .i64, false⟩,
    ⟨"gfx_present", [], .void, false⟩,
    ⟨"gfx_clear", [], .void, false⟩,
    ⟨"gfx_set_color", [.i64, .i64, .i64], .void, false⟩,
    ⟨"gfx_draw_line", [.i64, .i64, .i64, .i64], .void, false⟩]

def declareAll {ν : Type} [Counter ν] : List External → Build ν Unit
  | [] => return ()
  | e :: rest => do
    Builder.declareExternal e.name e.signature
    declareAll rest

end External
end QuillLang
