import ActionGrammar.Text.CharClass

/-! # Characters to ignore

Fillers, joiners, variation selectors and the like, which programs that do not
know them are to leave out when they show a text.
-/

namespace ActionGrammar.CharClass

def ignorable : CharClass := ⟨
  [0x00ad, 0x00ae, 0x034f, 0x0350, 0x061c, 0x061d, 0x115f, 0x1161, 0x17b4, 0x17b6, 0x180b, 0x1810,
   0x200b, 0x2010, 0x202a, 0x202f, 0x2060, 0x2070, 0x3164, 0x3165, 0xfe00, 0xfe10, 0xfeff, 0xff00,
   0xffa0, 0xffa1, 0xfff0, 0xfff9, 0x1bca0, 0x1bca4, 0x1d173, 0x1d17b, 0xe0000, 0xe1000]⟩

end ActionGrammar.CharClass
