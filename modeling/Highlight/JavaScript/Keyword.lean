import Highlight.Keyword

/-!
# Keywords of scripts
-/

namespace Highlight.JavaScript

def keywords : Keywords := #[
  ("await", .keywordControl), ("break", .keywordControl), ("case", .keywordControl),
  ("catch", .keywordControl), ("class", .keyword), ("const", .keyword),
  ("continue", .keywordControl), ("debugger", .keyword), ("default", .keywordControl),
  ("delete", .keywordOp), ("do", .keywordControl), ("else", .keywordControl), ("enum", .keyword),
  ("export", .keyword), ("extends", .keyword), ("false", .bool), ("finally", .keywordControl),
  ("for", .keywordControl), ("function", .keyword), ("if", .keywordControl), ("import", .keyword),
  ("in", .keywordOp), ("instanceof", .keywordOp), ("let", .keyword), ("new", .keywordOp),
  ("null", .null), ("return", .keywordControl), ("static", .keyword), ("super", .keyword),
  ("switch", .keywordControl), ("this", .keyword), ("throw", .keywordControl), ("true", .bool),
  ("try", .keywordControl), ("typeof", .keywordOp), ("var", .keyword), ("void", .keywordOp),
  ("while", .keywordControl), ("with", .keywordControl), ("yield", .keywordControl)]

def keyword? (word : List Char) : Option Kind := keywords.kind? word

end Highlight.JavaScript
