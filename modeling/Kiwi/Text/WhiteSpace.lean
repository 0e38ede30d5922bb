namespace Kiwi

def whiteSpaceRanges : List (Nat × Nat) :=
  [(0x09, 0x0D), (0x20, 0x20), (0x85, 0x85), (0xA0, 0xA0), (0x1680, 0x1680), (0x2000, 0x200A),
    (0x2028, 0x2029), (0x202F, 0x202F), (0x205F, 0x205F), (0x3000, 0x3000)]

def isWhiteSpace (c : Char) : Bool :=
  whiteSpaceRanges.any fun (first, last) => first ≤ c.toNat && c.toNat ≤ last

def trim (cs : List Char) : List Char :=
  ((cs.dropWhile isWhiteSpace).reverse.dropWhile isWhiteSpace).reverse

theorem mem_trim {c : Char} {cs : List Char} (h : c ∈ cs) (hc : isWhiteSpace c = false) :
    c ∈ trim cs := by
  have hdrop (ds : List Char) (hds : c ∈ ds) : c ∈ ds.dropWhile isWhiteSpace := by
    have hparts : ds.takeWhile isWhiteSpace ++ ds.dropWhile isWhiteSpace = ds :=
      List.takeWhile_append_dropWhile
    rw [← hparts, List.mem_append] at hds
    refine hds.resolve_left fun htake => ?_
    rw [List.all_eq_true.mp List.all_takeWhile c htake] at hc
    contradiction
  rw [trim, List.mem_reverse]
  exact hdrop _ (List.mem_reverse.mpr (hdrop _ h))

end Kiwi
