namespace LanguageClient

def word8 : Nat := Nat.pow 2 8

def word32 : Nat := Nat.pow 2 32

def word64 : Nat := Nat.pow 2 64

end LanguageClient
