/-!
# Splitting and escaping

Text is cut at a separator, either wherever it stands or only where no backslash escapes it. A
backslash escapes the one character behind it.
-/

namespace DirectoryHistory.Text

/-- Puts `front` before the first of `parts`. -/
def prepend (front : List Char) : List (List Char) → List (List Char)
  | [] => [front]
  | part :: parts => (front ++ part) :: parts

def split (sep : Char) : List Char → List (List Char)
  | [] => [[]]
  | c :: rest => if c = sep then [] :: split sep rest else prepend [c] (split sep rest)

/-- What stands before and behind the first `sep`. -/
def cut (sep : Char) : List Char → Option (List Char × List Char)
  | [] => none
  | c :: rest =>
    if c = sep then some ([], rest)
    else (cut sep rest).map fun (before, behind) => (c :: before, behind)

def splitUnescaped (sep : Char) : List Char → List (List Char)
  | [] => [[]]
  | ['\\'] => [['\\']]
  | '\\' :: c :: rest => prepend ['\\', c] (splitUnescaped sep rest)
  | c :: rest =>
    if c = sep then [] :: splitUnescaped sep rest else prepend [c] (splitUnescaped sep rest)

/-- What stands before and behind the first `sep` that is not escaped. -/
def cutUnescaped (sep : Char) : List Char → Option (List Char × List Char)
  | [] => none
  | ['\\'] => none
  | '\\' :: c :: rest =>
    (cutUnescaped sep rest).map fun (before, behind) => ('\\' :: c :: before, behind)
  | c :: rest =>
    if c = sep then some ([], rest)
    else (cutUnescaped sep rest).map fun (before, behind) => (c :: before, behind)

/-- A backslash at the very end escapes nothing and is dropped. -/
def unescape : List Char → List Char
  | [] => []
  | ['\\'] => []
  | '\\' :: c :: rest => c :: unescape rest
  | c :: rest => c :: unescape rest

/-- Escapes the characters that `special` holds of. -/
def escape (special : Char → Bool) : List Char → List Char
  | [] => []
  | c :: rest => if special c then '\\' :: c :: escape special rest else c :: escape special rest

end DirectoryHistory.Text
