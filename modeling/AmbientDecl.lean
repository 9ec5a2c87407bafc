import AmbientDecl.Main
import AmbientDecl.Symbol.Record
import AmbientDecl.Proofs.Arrival.Compile
import AmbientDecl.Proofs.Forest.Orphans
import AmbientDecl.Proofs.Diagnostics.Silent
import AmbientDecl.Proofs.Declaration.Nullable
import AmbientDecl.Proofs.Doclet.Record
import AmbientDecl.Proofs.TypeExpr.Canonical
import AmbientDecl.Proofs.Declaration.Merging
import AmbientDecl.Proofs.Declaration.Hoisted
import AmbientDecl.Proofs.Declaration.Comment
import AmbientDecl.Proofs.Declaration.Resolution
import AmbientDecl.Proofs.Declaration.Unambiguous
import AmbientDecl.Proofs.Forest.Enumeration
import AmbientDecl.Proofs.Symbol.Template
import AmbientDecl.Proofs.Declaration.Specifier
import AmbientDecl.Proofs.Diagnostics.Unresolved
import AmbientDecl.Proofs.Symbol.Initializer
