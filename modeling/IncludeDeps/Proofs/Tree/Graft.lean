import IncludeDeps.Proofs.Tree.Replacement

/-!
# What a directory holds, replaced

`Tree.graft` replaces all that the directory at a location holds.  The new contents
are what stands below the location (`below?_graft`), and elsewhere nothing changes
(`get?_graft_of_not_isPrefix`).

A change below the location is the same change of the contents: what is put or
removed there is put into or removed from what is grafted (`put_graft`,
`prune_graft`).  So a tree in which only one directory is worked in stays the old
tree with that directory's contents grafted onto it.
-/

namespace IncludeDeps.Tree

variable {tree inside : Tree} {root location : Location} {name : Name}

/-- The tree with all that the directory at a location holds replaced. -/
def graft (tree : Tree) : Location → Tree → Tree
  | [], inside => inside
  | name :: below, inside => tree.setItem name (.directory ((tree.inside name).graft below inside))

/-! ## Items that are set -/

theorem setItem_before (item other : Item) (rest : Tree) :
    (item.before name rest).setItem name other = other.before name rest := by
  cases item <;> simp [Item.before, setItem]

/-- An item that is set twice is what it was set to last. -/
theorem setItem_setItem (tree : Tree) (name : Name) (first second : Item) :
    (tree.setItem name first).setItem name second = tree.setItem name second := by
  induction tree with
  | empty => exact setItem_before first second _
  | file other content rest ih =>
      by_cases hsame : other = name
      · simp only [setItem, if_pos hsame, setItem_before]
      · simp only [setItem, if_neg hsame, ih]
  | directory other held rest _ ih =>
      by_cases hsame : other = name
      · simp only [setItem, if_pos hsame, setItem_before]
      · simp only [setItem, if_neg hsame, ih]

/-- An item that is set to what it is already stays as it is. -/
theorem setItem_of_item? {item : Item} (hitem : tree.item? name = some item) :
    tree.setItem name item = tree := by
  induction tree with
  | empty => cases hitem
  | file other content rest ih =>
      by_cases hsame : other = name
      · rw [item?, if_pos hsame] at hitem
        obtain rfl := Option.some.inj hitem
        rw [setItem, if_pos hsame, ← hsame]
        rfl
      · rw [item?, if_neg hsame] at hitem
        rw [setItem, if_neg hsame, ih hitem]
  | directory other held rest _ ih =>
      by_cases hsame : other = name
      · rw [item?, if_pos hsame] at hitem
        obtain rfl := Option.some.inj hitem
        rw [setItem, if_pos hsame, ← hsame]
        rfl
      · rw [item?, if_neg hsame] at hitem
        rw [setItem, if_neg hsame, ih hitem]

theorem inside_setItem (tree : Tree) (name : Name) (held : Tree) :
    (tree.setItem name (.directory held)).inside name = held := by
  rw [Tree.inside, item?_setItem_self]

/-! ## The contents -/

theorem below?_append_of_below? (hbelow : tree.below? root = some inside) (more : Location) :
    tree.below? (root ++ more) = inside.below? more := by
  induction root generalizing tree with
  | nil =>
      obtain rfl := Option.some.inj hbelow
      rfl
  | cons first rest ih =>
      rw [below?] at hbelow
      split at hbelow
      · next held hitem =>
        rw [List.cons_append, below?, hitem]
        exact ih hbelow
      · cases hbelow

@[simp] theorem below?_graft (tree : Tree) (root : Location) (inside : Tree) :
    (tree.graft root inside).below? root = some inside := by
  induction root generalizing tree with
  | nil => rfl
  | cons first rest ih =>
      rw [graft, below?, item?_setItem_self]
      exact ih _

@[simp] theorem get?_graft (tree : Tree) (root : Location) (inside : Tree) (more : Location) :
    (tree.graft root inside).get? (root ++ more) = inside.get? more :=
  get?_append_of_below? (below?_graft tree root inside) more

@[simp] theorem children_graft (tree : Tree) (root : Location) (inside : Tree) (more : Location) :
    (tree.graft root inside).children (root ++ more) = inside.children more := by
  rw [children, children, below?_append_of_below? (below?_graft tree root inside)]

/-- What the directory holds already changes nothing. -/
theorem graft_of_below? (hbelow : tree.below? root = some inside) :
    tree.graft root inside = tree := by
  induction root generalizing tree with
  | nil => exact (Option.some.inj hbelow).symm
  | cons first rest ih =>
      rw [below?] at hbelow
      split at hbelow
      · next held hitem =>
        have hinside : tree.inside first = held := by rw [Tree.inside, hitem]
        rw [graft, hinside, ih hbelow]
        exact setItem_of_item? hitem
      · cases hbelow

/-! ## Everything else -/

theorem get?_graft_of_not_isPrefix {other : Location} (hroot : tree.get? root = some .directory)
    (houtside : ¬ root <+: other) : (tree.graft root inside).get? other = tree.get? other := by
  induction root generalizing tree other with
  | nil => exact absurd List.nil_prefix houtside
  | cons first rest ih =>
      cases other with
      | nil => simp
      | cons wanted more =>
          by_cases hsame : wanted = first
          · subst hsame
            have hrest : ¬ rest <+: more := fun h => houtside ((List.prefix_cons_inj wanted).mpr h)
            rw [get?] at hroot
            split at hroot
            · cases hroot
            · split at hroot <;> cases hroot
            · next held hitem =>
              have hinside : tree.inside wanted = held := by rw [Tree.inside, hitem]
              rw [graft, get?, get?, item?_setItem_self, hitem, hinside]
              exact ih hroot hrest
          · rw [graft, get?, get?, item?_setItem_of_ne _ _ hsame]

/-! ## Changes of the contents -/

theorem put_graft (tree : Tree) (root : Location) (inside : Tree) (entry : Entry)
    (hbelow : location ≠ []) :
    (tree.graft root inside).put (root ++ location) entry =
      tree.graft root (inside.put location entry) := by
  induction root generalizing tree with
  | nil => rfl
  | cons first rest ih =>
      have hrest : rest ++ location ≠ [] := List.append_ne_nil_of_right_ne_nil rest hbelow
      rw [List.cons_append, put, if_neg hrest, graft, graft, inside_setItem, ih, setItem_setItem]

theorem prune_graft (tree : Tree) (root : Location) (inside : Tree) (hbelow : location ≠ []) :
    (tree.graft root inside).prune (root ++ location) =
      tree.graft root (inside.prune location) := by
  induction root generalizing tree with
  | nil => rfl
  | cons first rest ih =>
      have hrest : rest ++ location ≠ [] := List.append_ne_nil_of_right_ne_nil rest hbelow
      rw [List.cons_append, prune, if_neg hrest, graft, graft, item?_setItem_self]
      dsimp only
      rw [ih, setItem_setItem]

end IncludeDeps.Tree
