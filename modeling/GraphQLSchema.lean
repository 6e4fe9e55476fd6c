import GraphQLSchema.CommandLine.Session
import GraphQLSchema.Main
import GraphQLSchema.Proofs.Introspection.RoundTrip
import GraphQLSchema.Proofs.Introspection.Text
import GraphQLSchema.Proofs.Literal.Document
import GraphQLSchema.Proofs.Registry.Closing
import GraphQLSchema.Proofs.Snapshot.Legality
import GraphQLSchema.Proofs.Validation.Hierarchy
import GraphQLSchema.Proofs.Sdl.Description
import GraphQLSchema.Proofs.Validation.Instantiation
import GraphQLSchema.Proofs.Sdl.Member
import GraphQLSchema.Proofs.Sdl.Definition
import GraphQLSchema.Proofs.Sdl.Lossless
import GraphQLSchema.Proofs.Introspection.Consistent
import GraphQLSchema.Proofs.Registry.History
import GraphQLSchema.Proofs.Registry.Seeding
import GraphQLSchema.Proofs.Validation.Order
import GraphQLSchema.Proofs.Validation.Circularity
import GraphQLSchema.Proofs.Validation.CycleSearch
import GraphQLSchema.Proofs.Validation.Coercion
import GraphQLSchema.Proofs.Validation.Relaxation
import GraphQLSchema.Proofs.Sdl.Strings
import GraphQLSchema.Proofs.Literal.Keyword
import GraphQLSchema.Proofs.Validation.EnumDefault
import GraphQLSchema.Proofs.Sdl.Grammar
import GraphQLSchema.Proofs.Sdl.Readable
import GraphQLSchema.Proofs.Sdl.Roots
import GraphQLSchema.Proofs.TypeRef.Notation
import GraphQLSchema.Proofs.Introspection.Reference
import GraphQLSchema.Proofs.Snapshot.Truncation
import GraphQLSchema.Proofs.Validation.NumberDefault
import GraphQLSchema.Proofs.Literal.Integer
import GraphQLSchema.Proofs.Validation.Repetition
import GraphQLSchema.Proofs.CommandLine.Agreement
