/-!
# Lists without repetitions

`addNew` appends an item to a list unless an equal item is there already, and `distinct` builds a
list in this way, so that every item keeps the place of its first occurrence. Equality is `==`,
which need not be equality of the items.
-/

namespace ClassContract

/-- Append an item unless an equal one is there. -/
def addNew [BEq α] (xs : List α) (a : α) : List α := if xs.contains a then xs else xs ++ [a]

/-- Append the items of a list in order, each unless an equal one is there. -/
def addAllNew [BEq α] (xs : List α) (as : List α) : List α := as.foldl addNew xs

/-- The items of a list at their first places. -/
def distinct [BEq α] (as : List α) : List α := addAllNew [] as

/-- Adding two lists is adding one after the other. -/
theorem addAllNew_append [BEq α] (xs as bs : List α) :
    addAllNew xs (as ++ bs) = addAllNew (addAllNew xs as) bs := by
  rw [addAllNew, addAllNew, addAllNew, List.foldl_append]

/-- What is distinct in a longer list begins with what is distinct in its front. -/
theorem distinct_append [BEq α] (as bs : List α) :
    distinct (as ++ bs) = addAllNew (distinct as) bs := addAllNew_append [] as bs

end ClassContract
