/-!
# Lines

A line feed ends a line, and a carriage return right before it belongs to the
ending. A text that ends in a line feed has no empty last line.
-/

namespace TypedClient.Text

/-- The lines of a text, in order and without their endings. -/
def lines : List Char → List (List Char)
  | [] => []
  | '\r' :: '\n' :: rest => [] :: lines rest
  | '\n' :: rest => [] :: lines rest
  | c :: rest =>
    match lines rest with
    | [] => [[c]]
    | line :: others => (c :: line) :: others

/-- The texts one after another with `separator` between neighbours. -/
def joinWith (separator : String) : List String → String
  | [] => ""
  | [text] => text
  | text :: others => text ++ separator ++ joinWith separator others

@[simp] theorem lines_nil : lines [] = [] := rfl

@[simp] theorem joinWith_nil (separator : String) : joinWith separator [] = "" := rfl

@[simp] theorem joinWith_singleton (separator text : String) :
    joinWith separator [text] = text := rfl

/-- `count` copies of the four spaces that one level of nesting is indented by. -/
def indentation (count : Nat) : String := String.ofList (List.replicate (4 * count) ' ')

end TypedClient.Text
