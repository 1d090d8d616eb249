/-!
# Directory trees

A tree is what a directory holds: files, and directories with trees of their
own.  A location lists the names on the way from the top of the tree, and the
top itself is always a directory.  Names and contents are bytes.  `Tree.get?`
is the view through which every change of a tree is described: putting an
entry where no directory stands changes what stands at one location.
-/

namespace IncludeDeps

/-- The name of a file or directory. -/
abbrev Name := List UInt8

/-- The names on the way from the top of a tree. -/
abbrev Location := List Name

/-- What stands at a location. -/
inductive Entry where
  /-- A regular file and its bytes. -/
  | file (content : List UInt8)
  /-- A directory. -/
  | directory
  deriving DecidableEq, Repr

/-- A finite tree of files and directories, entry by entry of its top.  Of
several entries with one name the first counts. -/
inductive Tree where
  /-- Nothing but the top. -/
  | empty
  /-- A file right below the top, and the rest of the tree. -/
  | file (name : Name) (content : List UInt8) (rest : Tree)
  /-- A directory right below the top with what it holds, and the rest of the
  tree. -/
  | directory (name : Name) (inside rest : Tree)
  deriving DecidableEq, Repr

/-- What a name in a directory stands for. -/
inductive Item where
  /-- A regular file and its bytes. -/
  | file (content : List UInt8)
  /-- A directory and what it holds. -/
  | directory (inside : Tree)
  deriving DecidableEq, Repr

namespace Item

/-- The item without what it holds if it is a directory. -/
def entry : Item → Entry
  | file content => .file content
  | directory _ => .directory

/-- The tree with the item under a name before the rest of it. -/
def before (item : Item) (name : Name) (rest : Tree) : Tree :=
  match item with
  | file content => .file name content rest
  | directory inside => .directory name inside rest

end Item

/-- A new item: a directory holds nothing yet. -/
def Entry.item : Entry → Item
  | file content => .file content
  | directory => .directory .empty

namespace Tree

instance : Inhabited Tree := ⟨empty⟩

/-- What a name stands for right below the top. -/
def item? : Tree → Name → Option Item
  | empty, _ => none
  | file name content rest, wanted =>
    if name = wanted then some (.file content) else rest.item? wanted
  | directory name inside rest, wanted =>
    if name = wanted then some (.directory inside) else rest.item? wanted

/-- What the directory under a name holds; where there is no such directory,
that is nothing. -/
def inside (tree : Tree) (name : Name) : Tree :=
  match tree.item? name with
  | some (.directory inside) => inside
  | _ => empty

/-- The tree with an item under a name, in place of what stood there. -/
def setItem : Tree → Name → Item → Tree
  | empty, wanted, item => item.before wanted empty
  | file name content rest, wanted, item =>
    if name = wanted then item.before wanted rest
    else file name content (rest.setItem wanted item)
  | directory name inside rest, wanted, item =>
    if name = wanted then item.before wanted rest
    else directory name inside (rest.setItem wanted item)

/-- The tree without what stands under a name. -/
def dropItem : Tree → Name → Tree
  | empty, _ => empty
  | file name content rest, unwanted =>
    if name = unwanted then rest.dropItem unwanted
    else file name content (rest.dropItem unwanted)
  | directory name inside rest, unwanted =>
    if name = unwanted then rest.dropItem unwanted
    else directory name inside (rest.dropItem unwanted)

/-- What stands right below the top, each name once. -/
def items : Tree → List (Name × Entry)
  | empty => []
  | file name content rest => (name, .file content) :: rest.items.filter (·.1 ≠ name)
  | directory name _ rest => (name, .directory) :: rest.items.filter (·.1 ≠ name)

/-- What stands below the top, anywhere. -/
def entries : Tree → List (Location × Entry)
  | empty => []
  | file name content rest => ([name], .file content) :: rest.entries
  | directory name inside rest =>
    ([name], .directory) ::
      inside.entries.map (fun (below, entry) => (name :: below, entry)) ++ rest.entries

/-- The contents of all files. -/
def contents : Tree → List (List UInt8)
  | empty => []
  | file _ content rest => content :: rest.contents
  | directory _ inside rest => inside.contents ++ rest.contents

/-- What stands at a location, if anything does. -/
def get? (tree : Tree) : Location → Option Entry
  | [] => some .directory
  | name :: below =>
    match tree.item? name with
    | none => none
    | some (.file content) => if below = [] then some (.file content) else none
    | some (.directory inside) => inside.get? below

/-- What the directory at a location holds, if there is one. -/
def below? (tree : Tree) : Location → Option Tree
  | [] => some tree
  | name :: below =>
    match tree.item? name with
    | some (.directory inside) => inside.below? below
    | _ => none

/-- The names directly inside a directory, each with what it names. -/
def children (tree : Tree) (directory : Location) : List (Name × Entry) :=
  match tree.below? directory with
  | none => []
  | some inside => inside.items

/-- The tree with a new entry at a location, in place of what stood there, and
directories above it. -/
def put (tree : Tree) (location : Location) (entry : Entry) : Tree :=
  match location with
  | [] => tree
  | name :: below =>
    tree.setItem name
      (if below = [] then entry.item else .directory ((tree.inside name).put below entry))

/-- The tree with a directory at a location and at every location above it. -/
def withDirectory (tree : Tree) : Location → Tree
  | [] => tree
  | name :: below => tree.setItem name (.directory ((tree.inside name).withDirectory below))

/-- The tree without what stands at a location or below it. -/
def prune (tree : Tree) : Location → Tree
  | [] => empty
  | name :: below =>
    if below = [] then tree.dropItem name
    else match tree.item? name with
      | some (.directory inside) => tree.setItem name (.directory (inside.prune below))
      | _ => tree

/-! ## What the operations do to the view -/

theorem item?_before (item : Item) (name wanted : Name) (rest : Tree) :
    (item.before name rest).item? wanted =
      if name = wanted then some item else rest.item? wanted := by
  cases item <;> rfl

theorem item?_setItem_self (tree : Tree) (name : Name) (item : Item) :
    (tree.setItem name item).item? name = some item := by
  induction tree with
  | empty => simp [setItem, item?_before]
  | file other content rest ih =>
    by_cases same : other = name <;> simp [setItem, item?_before, item?, same, ih]
  | directory other inside rest _ ih =>
    by_cases same : other = name <;> simp [setItem, item?_before, item?, same, ih]

theorem item?_setItem_of_ne (tree : Tree) {name wanted : Name} (item : Item)
    (different : wanted ≠ name) : (tree.setItem name item).item? wanted = tree.item? wanted := by
  induction tree with
  | empty => simp [setItem, item?_before, item?, Ne.symm different]
  | file other content rest ih =>
    by_cases same : other = name
    · simp [setItem, item?_before, item?, same, Ne.symm different]
    · simp [setItem, item?, same, ih]
  | directory other inside rest _ ih =>
    by_cases same : other = name
    · simp [setItem, item?_before, item?, same, Ne.symm different]
    · simp [setItem, item?, same, ih]

@[simp] theorem get?_top (tree : Tree) : tree.get? [] = some .directory := by
  simp [get?]

theorem get?_put_self (tree : Tree) {location : Location} (entry : Entry) (below : location ≠ []) :
    (tree.put location entry).get? location = some entry := by
  induction location generalizing tree with
  | nil => exact absurd rfl below
  | cons name rest ih =>
    rw [put, get?, item?_setItem_self]
    by_cases last : rest = []
    · cases entry <;> simp [last, Entry.item]
    · simpa [last] using ih (tree.inside name) last

theorem get?_put_of_ne (tree : Tree) {location other : Location} (entry : Entry)
    (different : other ≠ location) (parent : tree.get? location.dropLast = some .directory)
    (vacant : tree.get? location ≠ some .directory) :
    (tree.put location entry).get? other = tree.get? other := by
  induction location generalizing tree other with
  | nil => simp at vacant
  | cons name rest ih =>
    cases other with
    | nil => simp
    | cons wanted below =>
      by_cases same : wanted = name
      · subst same
        rw [put, get?, get?, item?_setItem_self]
        by_cases last : rest = []
        · subst last
          have further : below ≠ [] := fun none => different (by rw [none])
          cases stands : tree.item? wanted with
          | none => cases entry <;> cases below <;> simp_all [Entry.item, get?, item?]
          | some item =>
            cases item with
            | file content => cases entry <;> cases below <;> simp_all [Entry.item, get?, item?]
            | directory inside => simp [get?, stands] at vacant
        · rw [List.dropLast_cons_of_ne_nil last, get?] at parent
          rw [get?] at vacant
          cases stands : tree.item? wanted with
          | none => simp [stands] at parent
          | some item =>
            cases item with
            | file content =>
              simp only [stands] at parent
              split at parent <;> simp at parent
            | directory inside =>
              simp only [stands] at parent vacant
              have shorter : below ≠ rest := fun equal => different (by rw [equal])
              simpa [last, Tree.inside, stands] using ih inside shorter parent vacant
      · rw [put, get?, get?, item?_setItem_of_ne _ _ same]

theorem get?_put {tree : Tree} {here : Location} {name : Name} (entry : Entry)
    (parent : tree.get? here = some .directory)
    (vacant : tree.get? (here ++ [name]) ≠ some .directory) (other : Location) :
    (tree.put (here ++ [name]) entry).get? other =
      if other = here ++ [name] then some entry else tree.get? other := by
  split
  · next same => rw [same, get?_put_self tree entry (by simp)]
  · next different =>
    exact get?_put_of_ne tree entry different (by rwa [List.dropLast_concat]) vacant

/-- What something stands below is a directory. -/
theorem get?_eq_directory_of_append {tree : Tree} {location more : Location} (further : more ≠ [])
    (stands : (tree.get? (location ++ more)).isSome = true) :
    tree.get? location = some .directory := by
  induction location generalizing tree with
  | nil => exact get?_top tree
  | cons name rest ih =>
    rw [List.cons_append, get?] at stands
    rw [get?]
    split at stands
    · cases stands
    · rw [if_neg (by simp [further])] at stands
      cases stands
    · exact ih stands

theorem item?_dropItem (tree : Tree) (unwanted wanted : Name) :
    (tree.dropItem unwanted).item? wanted =
      if wanted = unwanted then none else tree.item? wanted := by
  induction tree with
  | empty => simp [dropItem, item?]
  | file name content rest ih => grind [dropItem, item?]
  | directory name inside rest _ ih => grind [dropItem, item?]

theorem item?_prune_of_ne (tree : Tree) {name wanted : Name} (rest : Location)
    (different : wanted ≠ name) : (tree.prune (name :: rest)).item? wanted = tree.item? wanted := by
  rw [prune]
  split
  · rw [item?_dropItem, if_neg different]
  · split
    · rw [item?_setItem_of_ne _ _ different]
    · rfl

theorem get?_prune (tree : Tree) {location : Location} (below : location ≠ []) (other : Location) :
    (tree.prune location).get? other = if location <+: other then none else tree.get? other := by
  induction location generalizing tree other with
  | nil => exact absurd rfl below
  | cons name rest ih =>
    cases other with
    | nil => simp
    | cons wanted more =>
      by_cases same : wanted = name
      · subst same
        simp only [List.cons_prefix_cons, true_and]
        by_cases last : rest = []
        · simp [last, prune, get?, item?_dropItem]
        · rw [prune, if_neg last]
          cases stands : tree.item? wanted with
          | none => simp [get?, stands]
          | some item =>
            cases item with
            | file content =>
              -- nothing stands below a file
              have further : rest <+: more → more ≠ [] := fun beginning empty =>
                last (List.prefix_nil.mp (empty ▸ beginning))
              simp only [get?, stands]
              split <;> simp_all
            | directory inside =>
              simp only [get?, item?_setItem_self, stands]
              exact ih inside last more
      · have different : ¬ name :: rest <+: wanted :: more :=
          fun beginning => same (List.cons_prefix_cons.mp beginning).1.symm
        rw [if_neg different, get?, get?, item?_prune_of_ne tree rest same]

theorem mem_contents_of_item?_file {tree : Tree} {name : Name} {content : List UInt8}
    (found : tree.item? name = some (.file content)) : content ∈ tree.contents := by
  induction tree with
  | empty => simp [item?] at found
  | file other held rest ih => grind [item?, contents]
  | directory other inside rest _ ih => grind [item?, contents]

theorem mem_contents_of_item?_directory {tree inside : Tree} {name : Name} {content : List UInt8}
    (found : tree.item? name = some (.directory inside)) (held : content ∈ inside.contents) :
    content ∈ tree.contents := by
  induction tree with
  | empty => simp [item?] at found
  | file other _ rest ih => grind [item?, contents]
  | directory other _ rest _ ih => grind [item?, contents]

theorem mem_contents_of_get? {tree : Tree} {location : Location} {content : List UInt8}
    (found : tree.get? location = some (.file content)) : content ∈ tree.contents := by
  induction location generalizing tree with
  | nil => simp at found
  | cons name below ih =>
    rw [get?] at found
    split at found
    · simp at found
    · next stands =>
      split at found
      · simp only [Option.some.injEq, Entry.file.injEq] at found
        exact mem_contents_of_item?_file (found ▸ stands)
      · simp at found
    · next inside stands => exact mem_contents_of_item?_directory stands (ih found)

end Tree

end IncludeDeps
