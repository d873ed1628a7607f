import UhdmPlugin.Ast
import UhdmPlugin.Multirange
import UhdmPlugin.Flatten
import UhdmPlugin.Struct
import UhdmPlugin.Simplify
import UhdmPlugin.StructArray
import UhdmPlugin.Children
import UhdmPlugin.Registry
import UhdmPlugin.Design
import UhdmPlugin.Override
import UhdmPlugin.Stream
import UhdmPlugin.Memories
import UhdmPlugin.Patterns
import UhdmPlugin.Ranges
import UhdmPlugin.Walker
import UhdmPlugin.Generate
import UhdmPlugin.Operations
