import QuillLang.Main
import QuillLang.Proofs.Blocks.Errors
import QuillLang.Proofs.Chunks
import QuillLang.Proofs.Expressions
import QuillLang.Proofs.Inference
import QuillLang.Proofs.Lexing.Ranges
import QuillLang.Proofs.Linear
import QuillLang.Proofs.Listing
import QuillLang.Proofs.NullTexts
import QuillLang.Proofs.Operations
import QuillLang.Proofs.Preservation
import QuillLang.Proofs.Requests
import QuillLang.Proofs.Scoping.Program
import QuillLang.Proofs.Signatures.ClosedForm
import QuillLang.Proofs.TypeAgreement
import QuillLang.Proofs.Words
import QuillLang.Proofs.Writing.Joined
import QuillLang.Proofs.Writing.Kept
import QuillLang.Proofs.Writing.RoundTrip
