/-
Reading files little by little. Cleaning is a function of the files it
is given, but which files it needs turns out only while it runs. So it
is run with the files known so far, and told of a file it asks for in
vain; the files that it lacked are read, and it is run again. Each round
makes more files known.
-/
import Script.Host.Includes

namespace Script.Host

/-- What is known of files so far, by their paths. -/
abbrev Known := List (String × Except ReadFault String)

namespace Known

/-- Whether it is known if a path can be read. -/
def has (known : Known) (path : String) : Bool :=
  (known.lookup path).isSome

/-- Reads what is known; all else seems not to be there. -/
def reader (known : Known) : Reader := fun path =>
  (known.lookup path).getD (.error .notFound)

/-- Looks for included files among what is known. A candidate that is
not known yet hides those behind it. -/
def resolver (known : Known) (directories : List String) :
    Clean.Resolver := fun asking path =>
  ((candidates directories asking path).takeWhile known.has).findSome?
    fun name => (known.reader name).toOption.map fun text => ⟨name, text⟩

/-- The paths that have to be known to go on: that of the entry file,
then those of included files. There are none if all that can be asked
for is known. -/
def wanted (known : Known) (directories : List String) (entry : String) :
    List String :=
  if !known.has entry then [entry]
  else
    match load known.reader .empty entry with
    | .error _ => []
    | .ok (file, sources) =>
        match Cleaned.ofFile sources file (known.resolver directories) with
        | (.error ⟨.unresolved path, span⟩, sources) =>
            (candidates directories (sources.nameOf span.file) path).filter
              fun name => !known.has name
        | _ => []

/-- Only paths that are not known are wanted. -/
theorem not_has_of_mem_wanted {known : Known} {directories : List String}
    {entry path : String} (h : path ∈ known.wanted directories entry) :
    known.has path = false := by
  unfold wanted at h
  split at h
  · simp_all
  · split at h
    · simp at h
    · split at h
      · simpa using (List.mem_filter.1 h).2
      · simp at h

end Known

end Script.Host
