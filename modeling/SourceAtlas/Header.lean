import SourceAtlas.Header.CSharp
import SourceAtlas.Header.TypeScript

/-!
# Headers of either dialect
-/

namespace SourceAtlas.Dialect

def tokenize : Dialect → Text → Option Header
  | .csharp => CSharp.tokenize
  | .typescript => TypeScript.tokenize

def isMemberCandidate : Dialect → Text → Bool → Bool
  | .csharp => CSharp.isMemberCandidate
  | .typescript => TypeScript.isMemberCandidate

/-- The signature of a method whose parameter list closes at the given offset. -/
def finishMethod : Dialect → Text → Nat → Bool → Text
  | .csharp => CSharp.finishMethod
  | .typescript => TypeScript.finishMethod

def finishValue : Dialect → Text → Header → Text
  | .csharp => CSharp.finishValue
  | .typescript => TypeScript.finishValue

def memberKind (dialect : Dialect) (header : Header) (markers : List Marker)
    (accessorFollows : Bool) : MemberKind :=
  match dialect with
  | .csharp => CSharp.memberKind header markers accessorFollows
  | .typescript => TypeScript.memberKind header

def parameter? : Dialect → Text → Option Parameter
  | .csharp => CSharp.parameter?
  | .typescript => TypeScript.parameter?

/-- The parameters of a signature. Entries that cannot be read are left out. -/
def parameters (dialect : Dialect) (signature : Text) : List Parameter :=
  let parts? := do
    let header ← dialect.tokenize signature
    let start ← header.openParen
    let close ← findParen signature start
    splitCommas (trim ((signature.take close).drop (start + 1)))
  (parts?.getD []).filterMap dialect.parameter?

end SourceAtlas.Dialect
