/-!
# Alignment

`alignRight width text` fills a text with blanks on the left up to `width` characters.
-/

namespace ReversibleLogic.Text

def alignRight (width : Nat) (text : String) : String :=
  String.ofList (List.replicate (width - text.length) ' ') ++ text

end ReversibleLogic.Text
