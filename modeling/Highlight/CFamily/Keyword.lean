import Highlight.Keyword

/-!
# Keywords of C and C++

The keywords of C23 and C++23 and the usual extensions. Outside strict mode C++ knows the keywords
that only C has, and both dialects know the extensions.
-/

namespace Highlight.CFamily

inductive Dialect where
  | c
  | cpp
  deriving DecidableEq, Repr, Inhabited

/-- The keywords of C that C++ has as well. -/
def cKeywords : Keywords := #[
  ("alignas", .keyword), ("alignof", .keywordOp), ("auto", .keyword), ("bool", .keywordType),
  ("break", .keywordControl), ("case", .keywordControl), ("char", .keywordType),
  ("const", .keyword), ("constexpr", .keyword), ("continue", .keywordControl),
  ("default", .keywordControl), ("do", .keywordControl), ("double", .keywordType),
  ("else", .keywordControl), ("enum", .keyword), ("extern", .keyword), ("false", .bool),
  ("float", .keywordType), ("for", .keywordControl), ("goto", .keywordControl),
  ("if", .keywordControl), ("inline", .keyword), ("int", .keywordType), ("long", .keywordType),
  ("nullptr", .null), ("register", .keyword), ("return", .keywordControl), ("short", .keywordType),
  ("signed", .keywordType), ("sizeof", .keywordOp), ("static", .keyword),
  ("static_assert", .keyword), ("struct", .keyword), ("switch", .keywordControl),
  ("thread_local", .keyword), ("true", .bool), ("typedef", .keyword), ("union", .keyword),
  ("unsigned", .keywordType), ("void", .keywordType), ("volatile", .keyword),
  ("while", .keywordControl)]

/-- The keywords of C that C++ does not have. -/
def cOnlyKeywords : Keywords := #[
  ("_Alignas", .keyword), ("_Alignof", .keywordOp), ("_Atomic", .keyword),
  ("_BitInt", .keywordType), ("_Bool", .keywordType), ("_Complex", .keywordType),
  ("_Decimal128", .keywordType), ("_Decimal32", .keywordType), ("_Decimal64", .keywordType),
  ("_Generic", .keywordOp), ("_Imaginary", .keywordType), ("_Noreturn", .keyword),
  ("_Static_assert", .keyword), ("_Thread_local", .keyword), ("restrict", .keyword),
  ("typeof", .keywordOp), ("typeof_unqual", .keywordOp)]

def cppKeywords : Keywords := #[
  ("alignas", .keyword), ("alignof", .keywordOp), ("and", .keywordOp), ("and_eq", .keywordOp),
  ("asm", .keyword), ("auto", .keywordType), ("bitand", .keywordOp), ("bitor", .keywordOp),
  ("bool", .keywordType), ("break", .keywordControl), ("case", .keywordControl),
  ("catch", .keywordControl), ("char", .keywordType), ("char16_t", .keywordType),
  ("char32_t", .keywordType), ("char8_t", .keywordType), ("class", .keyword),
  ("co_await", .keywordControl), ("co_return", .keywordControl), ("co_yield", .keywordControl),
  ("compl", .keywordOp), ("concept", .keyword), ("const", .keyword), ("const_cast", .keywordOp),
  ("consteval", .keyword), ("constexpr", .keyword), ("constinit", .keyword),
  ("continue", .keywordControl), ("decltype", .keywordOp), ("default", .keywordControl),
  ("delete", .keywordOp), ("do", .keywordControl), ("double", .keywordType),
  ("dynamic_cast", .keywordOp), ("else", .keywordControl), ("enum", .keyword),
  ("explicit", .keyword), ("export", .keyword), ("extern", .keyword), ("false", .bool),
  ("float", .keywordType), ("for", .keywordControl), ("friend", .keyword),
  ("goto", .keywordControl), ("if", .keywordControl), ("inline", .keyword), ("int", .keywordType),
  ("long", .keywordType), ("mutable", .keyword), ("namespace", .keyword), ("new", .keywordOp),
  ("noexcept", .keywordOp), ("not", .keywordOp), ("not_eq", .keywordOp), ("nullptr", .null),
  ("operator", .keyword), ("or", .keywordOp), ("or_eq", .keywordOp), ("private", .keyword),
  ("protected", .keyword), ("public", .keyword), ("register", .keyword),
  ("reinterpret_cast", .keywordOp), ("requires", .keyword), ("return", .keywordControl),
  ("short", .keywordType), ("signed", .keywordType), ("sizeof", .keywordOp), ("static", .keyword),
  ("static_assert", .keyword), ("static_cast", .keywordOp), ("struct", .keyword),
  ("switch", .keywordControl), ("template", .keyword), ("this", .keyword),
  ("thread_local", .keyword), ("throw", .keywordControl), ("true", .bool),
  ("try", .keywordControl), ("typedef", .keyword), ("typeid", .keywordOp), ("typename", .keyword),
  ("union", .keyword), ("unsigned", .keywordType), ("using", .keyword), ("virtual", .keyword),
  ("void", .keywordType), ("volatile", .keyword), ("wchar_t", .keywordType),
  ("while", .keywordControl), ("xor", .keywordOp), ("xor_eq", .keywordOp)]

/-- The words that compilers add. -/
def extensionKeywords : Keywords := #[
  ("__alignof__", .keywordOp), ("__asm__", .keyword), ("__attribute__", .keyword),
  ("__builtin_offsetof", .keywordOp), ("__cdecl", .keyword), ("__declspec", .keyword),
  ("__extension__", .keyword), ("__fastcall", .keyword), ("__forceinline", .keyword),
  ("__inline", .keyword), ("__inline__", .keyword), ("__int128", .keywordType),
  ("__int16", .keywordType), ("__int32", .keywordType), ("__int64", .keywordType),
  ("__int8", .keywordType), ("__restrict", .keyword), ("__restrict__", .keyword),
  ("__stdcall", .keyword), ("__typeof__", .keywordOp), ("__volatile__", .keyword)]

/-- The tables of a dialect, in the order in which they are searched. -/
def keywordTables : Dialect → (strict : Bool) → List Keywords
  | .c, true => [cKeywords, cOnlyKeywords]
  | .c, false => [cKeywords, cOnlyKeywords, extensionKeywords]
  | .cpp, true => [cppKeywords]
  | .cpp, false => [cppKeywords, cOnlyKeywords, extensionKeywords]

def keyword? (dialect : Dialect) (strict : Bool) (word : List Char) : Option Kind :=
  (keywordTables dialect strict).findSome? (·.kind? word)

end Highlight.CFamily
