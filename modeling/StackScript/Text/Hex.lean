namespace StackScript.Text

def hex (width n : Nat) : String :=
  String.ofList ((Nat.toDigits 16 n).leftpad width '0')

end StackScript.Text
